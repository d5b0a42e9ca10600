import PhpLint.Proofs.Checked.Header
import PhpLint.Proofs.Model.Pass

/-!
Declarations by positions in the token list. Records are changed through their positions, which
must exist; what is declared is what the pass over lexemes declares.
-/
namespace PhpLint.Checked

open PhpLint.Bracket (Indexed)
open Lexeme
open Outline (Pass Holds)
open Outline.Pass (Sound)
open Parameter (Declared)

variable {ε : Type} {ts : List Token} {p : Pass} {size i : Nat} {x : Lexeme} {r : List Lexeme}

/-- Changes the record at a position. -/
def modifyAt {α : Type} (xs : Array α) (i : Nat) (f : α → α) : Checked ε (Array α) :=
  if i < xs.size then .ok (xs.modify i f) else trap .range

theorem modifyAt_eq {α : Type} {xs : Array α} (h : i < xs.size) (f : α → α) :
    (modifyAt xs i f : Checked ε (Array α)) = .ok (xs.modify i f) :=
  if_pos h

/-! ### Namespaces by positions -/

def endNamespace (p : Pass) (i : Nat) : Checked ε Pass := do
  match p.namespaces.back? with
  | none => return p
  | some last =>
    if i ≤ last.index then return { p with namespaces := p.namespaces.pop }
    else
      let bodyEnds ← sub i 1
      return { p with namespaces := p.namespaces.pop.push { last with bodyEnds := some bodyEnds } }

def namespaceDeclaration (ts : List Token) (p : Pass) (i : Nat) : Checked ε Pass := do
  let some j := next ts i | return p
  let (name, after) := nameAt ts j
  let some k := significant ts after | return p
  let t ← present ts[k]?
  let braced := t.is "\x7b"
  if !braced && !t.isTerminator then return p
  else
    let p ← endNamespace p i
    let record := p.namespaces.size
    let p := { p with
      namespaces := p.namespaces.push {
        index := i
        name := Text.dropLeading '\\' name
        bodyStarts := if braced then k else k + 1
        bodyEnds := some (ts.length - 1)
        imports := [] }
      skipUntil := k }
    return if braced then p.announce k (.namespaceBody record) else p

/-- Reads imports from token `j` to the end of their statement. -/
def importsFrom (ts : List Token) (q : Import.Progress) (j : Nat) : Checked ε (ImportMap × Nat) :=
  if _h : j < ts.length then do
    let t ← present ts[j]?
    if t.isSpace then importsFrom ts q (j + 1)
    else if t.isTerminator then return (q.finish, j)
    else if t.isKeyword "as" then
      match next ts j with
      | none => importsFrom ts q (j + 1)
      | some a =>
        let t ← present ts[a]?
        advance j (a + 1) fun _ => importsFrom ts { q with alias? := some t.text } (a + 1)
    else importsFrom ts (q.next ⟨t, false⟩) (j + 1)
  else return (q.finish, ts.length)
termination_by ts.length - j

def importStatement (ts : List Token) (p : Pass) (i : Nat) : Checked ε Pass := do
  let some first := next ts i | return p
  let t ← present ts[first]?
  let skipsAll := t.isKeyword "function" || t.isKeyword "const"
  let (found, after) ← importsFrom ts .start first
  let found := if skipsAll then [] else found
  let bindAll (ns : Namespace) : Namespace :=
    { ns with imports := found.foldl (fun m (short, full) => m.bind short full) ns.imports }
  let namespaces := p.namespaces.modify (p.namespaces.size - 1) bindAll
  return { p with namespaces, skipUntil := after }

/-! ### Classes by positions -/

def traitUse (ts : List Token) (p : Pass) (id i : Nat) : Checked ε Pass := do
  let some start := next ts i | return p
  let (names, after) ← namesAt ts start
  let classes ← modifyAt p.classes id fun c => { c with traits := c.traits ++ names }
  return { p with classes, skipUntil := after }

/-- The name of a class header at a position, and the position behind it. -/
def classNameAt (ts : List Token) (p : Pass) (anonymous : Bool) (j : Nat) :
    Checked ε (Option (Option Nat × String × Nat)) := do
  let t ← present ts[j]?
  if anonymous then
    if t.is "(" then
      let some close ← matching ts j | return none
      return (next ts close).map (none, Outline.anonymousClassName, ·)
    else return some (none, Outline.anonymousClassName, j)
  else if t.isIdentifier then
    let name := Namespace.qualifyLocal p.namespaceName t.text
    let some k := next ts j | return none
    let colon ← present ts[k]?
    if colon.is ":" then return ((next ts k).bind (next ts)).map (some j, name, ·)
    else return some (some j, name, k)
  else return none

/-- The names behind a keyword, if the keyword stands at a position. -/
def namesBehind (ts : List Token) (keyword : String) (k : Nat) :
    Checked ε (Option (List String × Nat)) := do
  let t ← present ts[k]?
  if t.isKeyword keyword then
    let some start := next ts k | return none
    return some (← namesAt ts start)
  else return some ([], k)

def interfacesAt (ts : List Token) (k : Nat) : Checked ε (Option (List String × Nat)) :=
  if k < ts.length then namesBehind ts "implements" k else return some ([], k)

/-- The position itself, if a body starts there. -/
def braceAt (ts : List Token) (k : Nat) : Checked ε (Option Nat) := do
  if k < ts.length then
    let t ← present ts[k]?
    return if t.is "\x7b" then some k else none
  else return none

/-- The parents and interfaces at a position, and the position of the body behind them. -/
def ancestorsAt (ts : List Token) (k : Nat) :
    Checked ε (Option (List String × List String × Nat)) := do
  let some (parents, k) ← namesBehind ts "extends" k | return none
  let some (interfaces, k) ← interfacesAt ts k | return none
  let some k ← braceAt ts k | return none
  return some (parents, interfaces, k)

/-- The name, the parents and interfaces, and the position of the body. -/
def headingAt (ts : List Token) (p : Pass) (anonymous : Bool) (j : Nat) :
    Checked ε (Option (Option Nat × String × List String × List String × Nat)) := do
  let some (nameIndex, name, k) ← classNameAt ts p anonymous j | return none
  let some (parents, interfaces, k) ← ancestorsAt ts k | return none
  return some (nameIndex, name, parents, interfaces, k)

/-- The class whose keyword stands at a position, if its header is complete. -/
def classAt (ts : List Token) (p : Pass) (kind : Class.Kind) (i : Nat) :
    Checked ε (Option Class) := do
  let anonymous ← precededBy ts i (·.isKeyword "new")
  let some j := next ts i | return none
  let some (nameIndex, name, parents, interfaces, k) ← headingAt ts p anonymous j | return none
  return some {
    index := i, kind, nameIndex, name, parents, interfaces
    traits := []
    bodyStarts := k, bodyEnds := k
    methods := [], properties := [], constants := []
    attributes := p.modifiers }

def classDeclaration (ts : List Token) (p : Pass) (kind : Class.Kind) (i : Nat) :
    Checked ε Pass := do
  match ← classAt ts p kind i with
  | none => return p
  | some c =>
    return { p with classes := p.classes.push c, modifiers := .empty }.announce
      c.bodyStarts (.classBody p.classes.size)

/-- The type written in front of a property; the tokens are read backwards. -/
def typeWritten (type : String) : List Token → Option String
  | [] => some type
  | t :: ts =>
    if t.isSpace then typeWritten type ts
    else if t.is "," then none
    else if t.kind == .keyword && ((Modifier.ofKeyword? t.text).isSome || t.isKeyword "readonly")
        || t.is ";" || t.is "\x7b" || t.is "\x7d" || t.is "]" then some type
    else typeWritten (t.text ++ type) ts

def propertyDeclaration (ts : List Token) (p : Pass) (id i : Nat) : Checked ε Pass := do
  let before ← slice ts 0 i
  let p := match typeWritten "" before.reverse with
    | some type => { p with propertyType := if type.isEmpty then none else some type }
    | none => p
  let t ← present ts[i]?
  let classes ← modifyAt p.classes id fun c => { c with
    properties := c.properties ++ [⟨i, t.text, some c.name, p.propertyType, p.modifiers⟩] }
  return { p with classes }

/-- The last identifier before the value of a constant. -/
def constantNameFrom (name : Option Nat) : List Token → Option Nat
  | [] => name
  | t :: ts =>
    if t.is "=" || t.is "," || t.isTerminator then name
    else constantNameFrom (if t.isIdentifier then some t.index else name) ts

/-- The constant whose element of the list starts at a position. -/
def constantAt (ts : List Token) (p : Pass) (className : Option String) (k : Nat) :
    Checked ε (Option Constant) := do
  let some n := constantNameFrom none (← sliceFrom ts k) | return none
  let t ← present ts[n]?
  let name := if className.isSome then t.text else Namespace.qualifyLocal p.namespaceName t.text
  return some { index := n, name, className, attributes := p.modifiers }

/-- Name of the class at a position. -/
def nameOf (p : Pass) (id : Nat) : Checked ε String := do
  let c ← present p.classes[id]?
  return c.name

def constantDeclaration (ts : List Token) (p : Pass) (i : Nat) : Checked ε Pass := do
  if p.classBody.isNone && !p.atNamespaceLevel then return p
  else
    let className ← p.classBody.mapM (nameOf p)
    let starts ← elements ts (i + 1) "," ";"
    let constants := (← starts.mapM (constantAt ts p className)).filterMap id
    match p.classBody with
    | some id =>
      let classes ← modifyAt p.classes id fun c => { c with constants := c.constants ++ constants }
      return { p with classes, modifiers := .empty }
    | none => return { p with constants := p.constants ++ constants.toArray, modifiers := .empty }

/-! ### Functions by positions -/

/-- Enters the next function as a method into its class, if it has one. -/
def addMethod (p : Pass) (methodOf : Option Nat) (name : Option String)
    (parameters : List Declared) : Checked ε (Array Class) :=
  match methodOf, name with
  | some c, some n => modifyAt p.classes c (Pass.addMethod · p.functions.size n parameters)
  | _, _ => return p.classes

def addFunction (ts : List Token) (p : Pass) (i : Nat) (header : Header) : Checked ε Pass := do
  let methodOf := if header.nameIndex.isSome then p.classBody else none
  let classId := if header.nameIndex.isSome then methodOf else p.enclosingClass
  let className ← classId.mapM (nameOf p)
  let name ← header.nameIndex.mapM fun n => do
    let t ← present ts[n]?
    return if methodOf.isSome then t.text else Namespace.qualifyLocal p.namespaceName t.text
  let id := p.functions.size
  let classes ← addMethod p methodOf name header.parameters
  let p := { p with
    classes
    functions := p.functions.push {
      index := i
      name
      nameIndex := header.nameIndex
      className
      classId
      bodyStarts := if header.body = .none then none else some header.bodyAt
      bodyEnds := match header.body with
        | .expression last => last
        | _ => header.bodyAt
      returnsReference := header.returnsReference
      parameters := header.parameters.map (·.parameter)
      usedVariables := header.usedVariables
      isDeclaration := header.body = .none
      attributes := p.modifiers }
    modifiers := .empty
    skipUntil := header.bodyAt }
  return if header.body = .block then p.announce header.bodyAt (.functionBody id) else p

def functionDeclaration (ts : List Token) (p : Pass) (i : Nat) : Checked ε Pass := do
  let t ← present ts[i]?
  match ← headerAt ts (t.isKeyword "fn") i with
  | some header => addFunction ts p i header
  | none => return p

/-! ### Namespaces -/

theorem endNamespace_eq (p : Pass) (i : Nat) :
    (endNamespace p i : Checked ε Pass) = .ok (p.endNamespace i) := by
  unfold endNamespace Pass.endNamespace
  cases p.namespaces.back? with
  | none => rfl
  | some last =>
    dsimp only
    by_cases hle : i ≤ last.index
    · rw [if_pos hle, if_pos hle]
      rfl
    · rw [if_neg hle, if_neg hle, sub_eq_ok (by omega)]
      rfl

theorem namespaceDeclaration_of_heads (hindexed : Indexed ts) (p : Pass) (h : Heads ts x r) :
    (namespaceDeclaration ts p x.index : Checked ε Pass) =
      .ok (p.namespaceDeclaration ts.length x.index r) := by
  unfold namespaceDeclaration Pass.namespaceDeclaration
  rw [next_of_heads h]
  cases r with
  | nil => rfl
  | cons y r =>
    have hy := h.of_suffix hindexed List.suffix_rfl
    obtain ⟨hname, hrest⟩ := nameAt_of_heads hindexed hy
    have hsuffix := readName_suffix (y :: r)
    dsimp only [front, List.head?_cons, Option.map_some]
    rw [significant_eq, hrest, hname]
    cases hafter : (readName (y :: r)).2 with
    | nil => rfl
    | cons z s =>
      rw [hafter] at hsuffix
      have hz := hy.of_suffix_cons hindexed hsuffix
      dsimp only [front, List.head?_cons, Option.map_some]
      rw [present_of_heads hz, ok_bind]
      by_cases hend : !z.is "\x7b" && !z.isTerminator
      · rw [if_pos hend, if_pos hend]
        rfl
      · rw [if_neg hend, if_neg hend, endNamespace_eq, ok_bind]
        split <;> rfl

private theorem aliasNext_next {q : Import.Progress} (hq : q.aliasNext = false) (x : Lexeme) :
    (q.next x).aliasNext = false := by
  unfold Import.Progress.next
  split
  · exact hq
  · split
    · rfl
    · split
      · exact hq
      · split <;> exact hq

/-- White space and comments do not count inside a statement. -/
theorem importsFrom_eq (hindexed : Indexed ts) (q : Import.Progress) (j : Nat)
    (hq : q.aliasNext = false) :
    (importsFrom ts q j : Checked ε (ImportMap × Nat)) =
      .ok ((Import.readFrom q (ahead ts j)).1,
        (front (Import.readFrom q (ahead ts j)).2).getD ts.length) := by
  rw [importsFrom]
  by_cases hj : j < ts.length
  · have ht : ts[j]? = some ts[j] := List.getElem?_eq_getElem hj
    have hindex := index_of_getElem? hindexed ht
    rw [dif_pos hj, ht, present_some, ok_bind]
    by_cases hspace : ts[j].isSpace
    · rw [if_pos hspace, ahead_of_space ht hspace, importsFrom_eq hindexed q (j + 1) hq]
    rw [if_neg hspace, ahead_of_not_space ht hspace, Import.readFrom, hq,
      if_neg Bool.false_ne_true]
    by_cases hend : ts[j].isTerminator
    · rw [if_pos hend, if_pos hend]
      change _ = Except.ok (q.finish, ts[j].index)
      rw [hindex]
      rfl
    rw [if_neg hend, if_neg hend]
    by_cases has : ts[j].isKeyword "as"
    · rw [if_pos has, if_pos has]
      unfold next
      rw [significant_eq]
      cases hahead : ahead ts (j + 1) with
      | nil =>
        dsimp only [front, List.head?_nil, Option.map_none]
        rw [importsFrom_eq hindexed q (j + 1) hq, hahead]
        rfl
      | cons y r =>
        obtain ⟨hle, hy⟩ := heads_of_ahead hindexed hahead
        dsimp only [front, List.head?_cons, Option.map_some]
        rw [present_of_heads hy, ok_bind, advance_eq (by omega),
          importsFrom_eq hindexed { q with alias? := some y.text, aliasNext := false } (y.index + 1) rfl,
          hy.after, Import.readFrom, if_pos rfl]
        rfl
    · rw [if_neg has, if_neg has, importsFrom_eq hindexed _ (j + 1) (aliasNext_next hq _)]
      rfl
  · rw [dif_neg hj, ahead_of_le (by omega), Import.readFrom]
    rfl
termination_by ts.length - j

theorem importStatement_of_heads (hindexed : Indexed ts) (p : Pass) (h : Heads ts x r) :
    (importStatement ts p x.index : Checked ε Pass) = .ok (p.importStatement ts.length r) := by
  unfold importStatement Pass.importStatement
  rw [next_of_heads h]
  cases r with
  | nil => rfl
  | cons y r =>
    have hy := h.of_suffix hindexed List.suffix_rfl
    dsimp only [front, List.head?_cons, Option.map_some]
    rw [present_of_heads hy, ok_bind, importsFrom_eq hindexed _ _ rfl, hy.ahead_index]
    rfl

/-! ### Classes -/

theorem traitUse_of_heads (hindexed : Indexed ts) {id : Nat} (hid : id < p.classes.size)
    (h : Heads ts x r) (hr : ¬ r.isEmpty) :
    (traitUse ts p id x.index : Checked ε Pass) = .ok (p.traitUse ts.length id r) := by
  unfold traitUse Pass.traitUse
  rw [next_of_heads h]
  cases r with
  | nil => contradiction
  | cons y r =>
    have hy := h.of_suffix hindexed List.suffix_rfl
    dsimp only [front, List.head?_cons, Option.map_some]
    rw [namesAt_of_heads hindexed hy, ok_bind, modifyAt_eq hid]
    rfl

theorem namesBehind_of_heads (hindexed : Indexed ts) (keyword : String) (h : Heads ts x r) :
    (namesBehind ts keyword x.index : Checked ε (Option (List String × Nat))) =
      .ok ((Pass.namesAfter? keyword (x :: r)).map fun (names, after) =>
        (names, (front after).getD ts.length)) := by
  unfold namesBehind Pass.namesAfter?
  rw [present_of_heads h, ok_bind]
  dsimp only
  by_cases hkeyword : x.isKeyword keyword
  · rw [if_pos hkeyword, if_pos hkeyword, next_of_heads h]
    cases r with
    | nil => rfl
    | cons y r =>
      have hy := h.of_suffix hindexed List.suffix_rfl
      dsimp only [front, List.head?_cons, Option.map_some]
      rw [namesAt_of_heads hindexed hy]
      rfl
  · rw [if_neg hkeyword, if_neg hkeyword]
    rfl

/-- A position that may be the end of the file. -/
private theorem position_cases (hindexed : Indexed ts) (h : Heads ts x r) {s : List Lexeme}
    (hs : s <:+ x :: r) : s = [] ∧ (front s).getD ts.length = ts.length ∨
      ∃ y t, s = y :: t ∧ (front s).getD ts.length = y.index ∧ Heads ts y t := by
  cases s with
  | nil => exact Or.inl ⟨rfl, rfl⟩
  | cons y t => exact Or.inr ⟨y, t, rfl, rfl, h.of_suffix_cons hindexed hs⟩

theorem interfacesAt_eq (hindexed : Indexed ts) (h : Heads ts x r) {s : List Lexeme}
    (hs : s <:+ x :: r) :
    (interfacesAt ts ((front s).getD ts.length) : Checked ε (Option (List String × Nat))) =
      .ok ((Pass.namesAfter? "implements" s).map fun (names, after) =>
        (names, (front after).getD ts.length)) := by
  unfold interfacesAt
  rcases position_cases hindexed h hs with ⟨rfl, hend⟩ | ⟨y, t, rfl, hat, hy⟩
  · rw [hend, if_neg (Nat.lt_irrefl _)]
    rfl
  · rw [hat, if_pos hy.lt]
    exact namesBehind_of_heads hindexed "implements" hy

theorem braceAt_eq (hindexed : Indexed ts) (h : Heads ts x r) {s : List Lexeme}
    (hs : s <:+ x :: r) :
    (braceAt ts ((front s).getD ts.length) : Checked ε (Option Nat)) =
      .ok ((s.head?.filter fun (y : Lexeme) => y.is "\x7b").map (·.index)) := by
  unfold braceAt
  rcases position_cases hindexed h hs with ⟨rfl, hend⟩ | ⟨y, t, rfl, hat, hy⟩
  · rw [hend, if_neg (Nat.lt_irrefl _)]
    rfl
  · rw [hat, if_pos hy.lt, present_of_heads hy, ok_bind, List.head?_cons, Option.filter_some]
    split <;> rfl

/-- What follows the name of a class. -/
def ancestors? (s : List Lexeme) : Option (List String × List String × Nat) := do
  let (parents, s) ← Pass.namesAfter? "extends" s
  let (interfaces, s) ← Pass.namesAfter? "implements" s
  let y ← s.head?
  guard (y.is "\x7b")
  return (parents, interfaces, y.index)

theorem ancestorsAt_of_heads (hindexed : Indexed ts) (h : Heads ts x r) :
    (ancestorsAt ts x.index : Checked ε (Option (List String × List String × Nat))) =
      .ok (ancestors? (x :: r)) := by
  unfold ancestorsAt ancestors?
  rw [namesBehind_of_heads hindexed "extends" h, ok_bind]
  cases hparents : Pass.namesAfter? "extends" (x :: r) with
  | none => rfl
  | some read =>
    obtain ⟨parents, s⟩ := read
    have hs := Pass.namesAfter?_suffix hparents
    dsimp only [Option.map_some]
    rw [interfacesAt_eq hindexed h hs, ok_bind]
    cases hinterfaces : Pass.namesAfter? "implements" s with
    | none => simp [hinterfaces]
    | some read =>
      obtain ⟨interfaces, s'⟩ := read
      have hs' := (Pass.namesAfter?_suffix hinterfaces).trans hs
      dsimp only [Option.map_some]
      rw [braceAt_eq hindexed h hs', ok_bind]
      cases hhead : s'.head? with
      | none => simp [hinterfaces, hhead]
      | some y =>
        rw [Option.filter_some]
        by_cases hbrace : y.is "\x7b"
        · simp [guard, hinterfaces, hhead, hbrace]
        · simp [guard, hinterfaces, hhead, hbrace]

/-- The header of a class behind its keyword. -/
def heading? (p : Pass) (anonymous : Bool) (s : List Lexeme) :
    Option (Option Nat × String × List String × List String × Nat) := do
  let (nameIndex, name, s) ← p.className? anonymous s
  let (parents, interfaces, k) ← ancestors? s
  return (nameIndex, name, parents, interfaces, k)

private theorem ancestors?_of_colon (h : x.is ":") : ancestors? [x] = none := by
  have hkeyword (word : String) : Pass.namesAfter? word [x] = some ([], [x]) := by
    unfold Pass.namesAfter?
    dsimp only
    rw [if_neg]
    unfold Token.is at h
    unfold Token.isKeyword
    intro hkeyword
    simp only [Bool.and_eq_true, Bool.or_eq_true, beq_iff_eq] at h hkeyword
    rcases h.1 with hkind | hkind <;> rw [hkind] at hkeyword <;> cases hkeyword.1
  have hbrace : x.is "\x7b" = false := by
    unfold Token.is at h ⊢
    simp only [Bool.and_eq_true, beq_iff_eq] at h
    rw [h.2]
    simp
  unfold ancestors?
  rw [hkeyword]
  simp [hkeyword, hbrace, guard]

theorem headingAt_of_heads (hindexed : Indexed ts) (hlong : LongOperators ts) (p : Pass)
    (anonymous : Bool) (h : Heads ts x r) :
    (headingAt ts p anonymous x.index :
      Checked ε (Option (Option Nat × String × List String × List String × Nat))) =
      .ok (heading? p anonymous (x :: r)) := by
  -- what follows the name starts with the ancestors, or there is nothing
  have hrest (nameIndex : Option Nat) (name : String) {s : List Lexeme} (hs : s <:+ x :: r) :
      (match (front s).map (nameIndex, name, ·) with
        | some (nameIndex, name, k) => do
          let some (parents, interfaces, k) ← ancestorsAt ts k | return none
          return some (nameIndex, name, parents, interfaces, k)
        | _ => return none :
          Checked ε (Option (Option Nat × String × List String × List String × Nat))) =
      .ok (do
        let (parents, interfaces, k) ← ancestors? s
        return (nameIndex, name, parents, interfaces, k)) := by
    cases s with
    | nil => rfl
    | cons y t =>
      have hy := h.of_suffix_cons hindexed hs
      dsimp only [front, List.head?_cons, Option.map_some]
      rw [ancestorsAt_of_heads hindexed hy, ok_bind]
      cases ancestors? (y :: t) <;> rfl
  unfold headingAt heading? classNameAt Pass.className?
  rw [present_of_heads h, ok_bind]
  dsimp only
  by_cases hanonymous : anonymous
  · rw [if_pos hanonymous, if_pos hanonymous]
    by_cases hparen : x.is "("
    · have hopen := isOpenBracket_of_is hlong h.mem (Or.inl rfl) hparen
      rw [if_pos hparen, if_pos hparen, matching_of_heads h hopen, ok_bind]
      unfold afterClosing
      cases hclosing : closing 0 r with
      | none => rfl
      | some s =>
        have hs := closing_suffix hclosing
        cases s with
        | nil => rfl
        | cons y s =>
          have hy := h.of_suffix hindexed hs
          have hrest := hrest none Outline.anonymousClassName
            ((List.suffix_cons y s).trans (hs.trans (List.suffix_cons x r)))
          dsimp only [front, List.head?_cons, Option.map_some, Option.bind_some]
          rw [next_of_heads hy]
          exact hrest
    · rw [if_neg hparen, if_neg hparen]
      exact hrest none Outline.anonymousClassName List.suffix_rfl
  rw [if_neg hanonymous, if_neg hanonymous]
  by_cases hname : x.isIdentifier
  · rw [if_pos hname, if_pos hname, next_of_heads h]
    cases r with
    | nil => rfl
    | cons colon r =>
      have hcolon := h.of_suffix hindexed List.suffix_rfl
      dsimp only [front, List.head?_cons, Option.map_some]
      rw [present_of_heads hcolon, ok_bind]
      by_cases hbacked : colon.is ":"
      · rw [if_pos hbacked, next_of_heads hcolon]
        cases r with
        | nil =>
          change Except.ok none = Except.ok ((ancestors? [colon]).bind _)
          rw [ancestors?_of_colon hbacked]
          rfl
        | cons y s =>
          have hy := hcolon.of_suffix hindexed List.suffix_rfl
          have hs : s <:+ x :: colon :: y :: s :=
            ((List.suffix_cons y s).trans (List.suffix_cons colon _)).trans (List.suffix_cons x _)
          dsimp only [front, List.head?_cons, Option.map_some, Option.bind_some]
          rw [next_of_heads hy, if_pos hbacked]
          exact hrest (some x.index) _ hs
      · have hnamed := hrest (some x.index) (Namespace.qualifyLocal p.namespaceName x.text)
          (List.suffix_cons x (colon :: r))
        rw [if_neg hbacked]
        cases r with
        | nil => exact hnamed
        | cons y s =>
          dsimp only
          rw [if_neg hbacked]
          exact hnamed
  · rw [if_neg hname, if_neg hname]
    rfl

theorem classAt_of_heads (hindexed : Indexed ts) (hlong : LongOperators ts) (p : Pass)
    (kind : Class.Kind) (h : Heads ts x r) :
    (classAt ts p kind x.index : Checked ε (Option Class)) =
      .ok (p.class? kind ((behind ts x.index).head?.any (·.isKeyword "new")) x.index r) := by
  have hheading (anonymous : Bool) : p.class? kind anonymous x.index r =
      (heading? p anonymous r).map fun (nameIndex, name, parents, interfaces, k) => {
        index := x.index, kind, nameIndex, name, parents, interfaces
        traits := []
        bodyStarts := k, bodyEnds := k
        methods := [], properties := [], constants := []
        attributes := p.modifiers } := by
    unfold Pass.class? heading? ancestors?
    simp [Option.map_bind, Option.bind_assoc]
  unfold classAt
  rw [precededBy_eq hindexed (Nat.le_of_lt h.lt), ok_bind, next_of_heads h, hheading]
  cases r with
  | nil => rfl
  | cons y r =>
    have hy := h.of_suffix hindexed List.suffix_rfl
    dsimp only [front, List.head?_cons, Option.map_some]
    rw [headingAt_of_heads hindexed hlong p _ hy, ok_bind]
    cases heading? p _ (y :: r) <;> rfl

theorem classDeclaration_of_heads (hindexed : Indexed ts) (hlong : LongOperators ts) (p : Pass)
    (kind : Class.Kind) (h : Heads ts x r) :
    (classDeclaration ts p kind x.index : Checked ε Pass) =
      .ok (p.classDeclaration kind ((behind ts x.index).head?.any (·.isKeyword "new")) x.index r) := by
  unfold classDeclaration Pass.classDeclaration
  rw [classAt_of_heads hindexed hlong p kind h, ok_bind]
  cases p.class? kind _ x.index r <;> rfl

theorem typeWritten_eq {s : List Lexeme} (type : String)
    (h : s.map (·.toToken) = ts.filter (!·.isSpace)) :
    typeWritten type ts = Pass.typeBefore type s := by
  induction ts generalizing type s with
  | nil =>
    rw [List.map_eq_nil_iff.mp h]
    rfl
  | cons t ts ih =>
    rw [typeWritten]
    by_cases hspace : t.isSpace
    · rw [List.filter_cons_of_neg (by simpa using hspace)] at h
      rw [if_pos hspace]
      exact ih type h
    · rw [List.filter_cons_of_pos (by simpa using hspace)] at h
      obtain ⟨x, r, rfl, rfl, hr⟩ := List.map_eq_cons_iff.mp h
      rw [if_neg hspace, Pass.typeBefore, ih _ hr]

theorem propertyDeclaration_of_heads {id : Nat} (hid : id < p.classes.size) (h : Heads ts x r) :
    (propertyDeclaration ts p id x.index : Checked ε Pass) =
      .ok (p.propertyDeclaration id (behind ts x.index) x) := by
  have hbehind : (behind ts x.index).map (·.toToken) =
      (ts.take x.index).reverse.filter (!·.isSpace) := by
    unfold behind
    rw [List.map_reverse, map_toToken_ofTokens, List.filter_reverse]
  unfold propertyDeclaration Pass.propertyDeclaration
  rw [slice_eq_ok (Nat.zero_le _) (Nat.le_of_lt h.lt), ok_bind, List.drop_zero,
    typeWritten_eq "" hbehind, present_of_heads h]
  cases Pass.typeBefore "" (behind ts x.index) with
  | none =>
    dsimp only
    rw [ok_bind, modifyAt_eq hid]
    rfl
  | some type =>
    dsimp only
    rw [ok_bind, modifyAt_eq hid]
    rfl

/-! ### Constants -/

theorem constantNameFrom_eq (name : Option Lexeme) (joined : Bool) (ts : List Token) :
    constantNameFrom (name.map (·.index)) ts =
      (Pass.constantName name (ofTokens joined ts)).map (·.index) := by
  induction ts generalizing name joined with
  | nil => rfl
  | cons t ts ih =>
    rw [constantNameFrom, ofTokens]
    by_cases hspace : t.isSpace
    · rw [not_is_of_isSpace hspace, not_is_of_isSpace hspace, not_isTerminator_of_isSpace hspace,
        not_isIdentifier_of_isSpace hspace, if_pos hspace]
      exact ih name false
    · rw [if_neg hspace, Pass.constantName]
      by_cases hend : t.is "=" || t.is "," || t.isTerminator
      · rw [if_pos hend, if_pos hend]
      · rw [if_neg hend, if_neg hend, ← ih _ true]
        by_cases hname : t.isIdentifier
        · rw [if_pos hname, if_pos hname]
          rfl
        · rw [if_neg hname, if_neg hname]

theorem mem_of_constantName {name : Option Lexeme} {s : List Lexeme} {y : Lexeme}
    (h : Pass.constantName name s = some y) : name = some y ∨ y ∈ s := by
  induction s generalizing name with
  | nil => exact Or.inl h
  | cons x r ih =>
    rw [Pass.constantName] at h
    split at h
    · exact Or.inl h
    · rcases ih h with h | h
      · split at h
        · exact Or.inr (Option.some.inj h ▸ List.mem_cons_self)
        · exact Or.inl h
      · exact Or.inr (List.mem_cons_of_mem x h)

/-- The constant of an element, if it names one. -/
def constantOf (p : Pass) (className : Option String) (s : List Lexeme) : Option Constant :=
  (Pass.constantName none s).map fun x =>
    { index := x.index
      name := if className.isSome then x.text else Namespace.qualifyLocal p.namespaceName x.text
      className
      attributes := p.modifiers }

theorem Heads.getElem?_of_mem (hindexed : Indexed ts) (h : Heads ts x r) {y : Lexeme}
    (hy : y ∈ x :: r) : ts[y.index]? = some y.toToken := by
  obtain ⟨s, t, heq⟩ := List.append_of_mem hy
  exact (h.of_suffix_cons hindexed (heq ▸ List.suffix_append s (y :: t))).token

theorem constantAt_of_heads (hindexed : Indexed ts) (p : Pass) (className : Option String)
    (h : Heads ts x r) :
    (constantAt ts p className x.index : Checked ε (Option Constant)) =
      .ok (constantOf p className (x :: r)) := by
  unfold constantAt constantOf
  have hname := constantNameFrom_eq none (endsJoined (ts.take x.index)) (ts.drop x.index)
  have hahead : ofTokens (endsJoined (ts.take x.index)) (ts.drop x.index) = x :: r := h.ahead_index
  rw [hahead, Option.map_none] at hname
  rw [sliceFrom_eq_ok (Nat.le_of_lt h.lt), ok_bind, hname]
  cases hconstant : Pass.constantName none (x :: r) with
  | none => rfl
  | some y =>
    have hmem : y ∈ x :: r := (mem_of_constantName hconstant).resolve_left nofun
    dsimp only [Option.map_some]
    rw [Heads.getElem?_of_mem hindexed h hmem]
    rfl

theorem mapM_nameOf {id? : Option Nat} (h : ∀ id, id? = some id → id < p.classes.size) :
    (id?.mapM (nameOf p) : Checked ε (Option String)) = .ok (id?.bind p.className) := by
  cases id? with
  | none => rfl
  | some id =>
    have hlt := h id rfl
    have hget : p.classes[id]? = some p.classes[id] := Array.getElem?_eq_getElem hlt
    change (do
      let name ← nameOf p id
      return some name : Checked ε (Option String)) = .ok (p.classes[id]?.map (·.name))
    unfold nameOf
    rw [hget]
    rfl

theorem constantDeclaration_of_heads (hindexed : Indexed ts) (hsound : p.Sound size i)
    (h : Heads ts x r) :
    (constantDeclaration ts p x.index : Checked ε Pass) = .ok (p.constantDeclaration r) := by
  have hclass (id : Nat) (hid : p.classBody = some id) : id < p.classes.size :=
    hsound.classBody_lt hid
  have hread : ∀ e ∈ listElements Lexeme.toToken "," ";" true 0 r, ∃ z t, e = z :: t ∧
      (constantAt ts p (p.classBody.bind p.className) z.index : Checked ε (Option Constant)) =
        .ok (constantOf p (p.classBody.bind p.className) e) := by
    intro e he
    obtain ⟨hne, hs⟩ := listElements_suffix he
    obtain ⟨z, t, rfl⟩ := List.exists_cons_of_ne_nil hne
    exact ⟨z, t, rfl, constantAt_of_heads hindexed p _ (h.of_suffix hindexed hs)⟩
  unfold constantDeclaration Pass.constantDeclaration
  by_cases hskip : p.classBody.isNone && !p.atNamespaceLevel
  · rw [if_pos hskip, if_pos hskip]
    rfl
  rw [if_neg hskip, if_neg hskip, mapM_nameOf hclass, ok_bind, elements_eq, ok_bind, h.after,
    mapM_front hread, ok_bind]
  rw [List.filterMap_map]
  have hnames : (p.classBody.bind p.className).isSome = p.classBody.isSome := by
    cases hid : p.classBody with
    | none => rfl
    | some id =>
      have hlt := hclass id hid
      simp [Pass.className, hlt]
  have hconstants (e : List Lexeme) : constantOf p (p.classBody.bind p.className) e =
      (Pass.constantName none e).map fun x =>
        { index := x.index
          name := if p.classBody.isSome then x.text
            else Namespace.qualifyLocal p.namespaceName x.text
          className := p.classBody.bind p.className
          attributes := p.modifiers } := by
    unfold constantOf
    rw [hnames]
  rw [funext fun e => hconstants e]
  cases hid : p.classBody with
  | none => rfl
  | some id =>
    dsimp only
    rw [modifyAt_eq (hclass id hid)]
    rfl

/-! ### Functions -/

theorem addMethod_eq {id : Nat} (h : id < p.classes.size) (name : String)
    (parameters : List Declared) :
    (addMethod p (some id) (some name) parameters : Checked ε (Array Class)) =
      .ok (p.classes.modify id (Pass.addMethod · p.functions.size name parameters)) :=
  modifyAt_eq h _

theorem addFunction_eq {header : Signature} (hsound : p.Sound size i)
    (hname : ∀ y, header.name = some y → ts[y.index]? = some y.toToken) (k : Nat) :
    (addFunction ts p k (Header.ofSignature header) : Checked ε Pass) = .ok (p.addFunction k header) := by
  unfold addFunction Pass.addFunction Header.ofSignature
  dsimp only
  cases hheader : header.name with
  | none =>
    have hclassId (id : Nat) (hid : p.enclosingClass = some id) : id < p.classes.size :=
      hsound.enclosingClass_lt hid
    simp only [Option.map_none, Option.isSome_none, Bool.false_eq_true, if_false]
    rw [mapM_nameOf hclassId]
    rfl
  | some y =>
    have hclassId (id : Nat) (hid : p.classBody = some id) : id < p.classes.size :=
      hsound.classBody_lt hid
    simp only [Option.map_some, Option.isSome_some, if_true]
    rw [mapM_nameOf hclassId, ok_bind, Option.mapM_some, hname y hheader]
    simp only [present_some, ok_bind]
    cases hbody : p.classBody with
    | none => rfl
    | some id =>
      have hname : some <$> (pure y.text : Checked ε String) = .ok (some y.text) := rfl
      simp only [Option.isSome_some, if_true]
      rw [hname, ok_bind, addMethod_eq (hclassId id hbody)]
      rfl

theorem functionDeclaration_of_heads (hindexed : Indexed ts) (hlong : LongOperators ts)
    (hsound : p.Sound size i) (h : Heads ts x r) :
    (functionDeclaration ts p x.index : Checked ε Pass) =
      .ok (p.functionDeclaration (x.isKeyword "fn") x.index r) := by
  unfold functionDeclaration Pass.functionDeclaration
  rw [present_of_heads h, ok_bind, headerAt_eq hindexed hlong, ok_bind, h.after]
  cases hread : Signature.read? (x.isKeyword "fn") r with
  | none => rfl
  | some header =>
    refine addFunction_eq hsound (fun y hy => ?_) x.index
    exact Heads.getElem?_of_mem hindexed h
      (List.mem_cons_of_mem x (Signature.mem_of_name hread hy).1)

end PhpLint.Checked
