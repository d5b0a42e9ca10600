import PhpLint.Proofs.Checked.Extent
import PhpLint.Proofs.Checked.Pass
import PhpLint.Proofs.Model.State

/-!
The end of a pass: records of namespaces are ended, and written names are cut into segments to be
resolved in them. Nothing is cut inside a character.
-/
namespace PhpLint.Checked

open PhpLint.Bracket (Indexed)
open Lexeme (LongOperators)
open Outline Text Token

variable {ε : Type} {ts : List Token}

/-! ### Resolution by positions -/

/-- The first segment of a name, and what follows it. -/
def firstSegment (name : String) : Checked ε (String × String) :=
  let bs := octets name.toList
  match find? ['\\'].isPrefixOf bs with
  | some n => return (← cut bs 0 n, ← cut bs n bs.length)
  | none => return (name, "")

def qualify (ns : Namespace) (name : String) : Checked ε String := do
  if name.toList.head? == some '\\' then return String.ofList (name.toList.drop 1)
  else
    let (first, rest) ← firstSegment name
    if sameFold first "namespace" && !rest.isEmpty then
      let relative ← cut (octets rest.toList) 1 (octets rest.toList).length
      return Namespace.qualifyLocal ns.name relative
    else
      return match ns.imports.lookup (fold first) with
        | some full => full ++ rest
        | none => Namespace.qualifyLocal ns.name name

def resolveWord (ns : Namespace) (word : List Char) : Checked ε (List Char) := do
  if word.isEmpty then return []
  else if isBuiltinType (String.ofList word) then return word
  else return (← qualify ns (String.ofList word)).toList

def resolveWords (ns : Namespace) (word : List Char) : List Char → Checked ε (List Char)
  | [] => resolveWord ns word.reverse
  | c :: r => do
    if Namespace.isTypeNameChar c then resolveWords ns (c :: word) r
    else return (← resolveWord ns word.reverse) ++ c :: (← resolveWords ns [] r)

def resolveType (ns : Namespace) (type : String) : Checked ε String := do
  return String.ofList (← resolveWords ns [] type.toList)

def resolveProperty (ns : Namespace) (x : Property) : Checked ε Property := do
  return { x with typeName := ← x.typeName.mapM (resolveType ns) }

def resolveParameter (ns : Namespace) (x : Parameter) : Checked ε Parameter := do
  return { x with typeName := ← x.typeName.mapM (resolveType ns) }

def resolveClass (records : List Namespace) (c : Class) : Checked ε Class := do
  let ns := namespaceAt records c.index
  return { c with
    parents := ← c.parents.mapM (qualify ns)
    interfaces := ← c.interfaces.mapM (qualify ns)
    traits := ← c.traits.mapM (qualify ns)
    properties := ← c.properties.mapM (resolveProperty ns) }

def resolveFunction (records : List Namespace) (f : Function) : Checked ε Function := do
  let ns := namespaceAt records f.index
  return { f with parameters := ← f.parameters.mapM (resolveParameter ns) }

def finishedNamespaces (p : Pass) (size : Nat) : Checked ε (List Namespace) := do
  if size == 0 then return []
  else
    let last ← sub size 1
    let records := p.namespaces.modify (p.namespaces.size - 1) (Pass.endLast last)
    return records.toList.filter fun ns => ns.index ≤ last && ns.bodyEnds.all (ns.index ≤ ·)

/-- The outline of a file from the records that its pass has made. -/
def finish (size : Nat) (b : Builder) : Checked ε Outline := do
  let namespaces ← finishedNamespaces b.toPass size
  return {
    brackets := b.brackets
    namespaces
    classes := (← b.classes.toList.mapM (resolveClass namespaces)).toArray
    functions := (← b.functions.toList.mapM (resolveFunction namespaces)).toArray
    constants := b.constants.toList }

def outline (ts : List Token) : Checked Bracket.Mismatch Outline := do
  finish ts.length (← pass ts)

/-! ### Names -/

theorem firstSegment_eq (name : String) : (firstSegment name : Checked ε (String × String)) =
    .ok (String.ofList (name.toList.takeWhile (· != '\\')),
      String.ofList (name.toList.dropWhile (· != '\\'))) := by
  have hstart := stands_zero name.toList
  unfold firstSegment
  dsimp only
  rw [find?_octets (by simp), find?_singleton]
  by_cases hmem : '\\' ∈ name.toList
  · have hfirst := cut_of_stands (ε := ε) hstart (run (· != '\\') name.toList)
    have hrest := cut_rest (ε := ε) (hstart.moveBy (run (· != '\\') name.toList))
    rw [Nat.zero_add] at hfirst hrest
    rw [if_pos hmem]
    dsimp only [Option.map_some]
    rw [hfirst, ok_bind, hrest, ok_bind, take_run, drop_run]
    rfl
  · have hall : ∀ c ∈ name.toList, (c != '\\') = true := by
      intro c hc
      rw [bne_iff_ne]
      rintro rfl
      exact hmem hc
    have hempty : name.toList.dropWhile (· != '\\') = [] := List.dropWhile_eq_nil_iff.mpr hall
    rw [if_neg hmem, hempty, List.takeWhile_eq_self_iff.mpr hall, String.ofList_toList]
    rfl

/-- A name that does not start with a separator. -/
private theorem qualify_of_head {name : String} (h : name.toList.head? ≠ some '\\')
    (ns : Namespace) : ns.qualify name =
      let first := String.ofList (name.toList.takeWhile (· != '\\'))
      let rest := String.ofList (name.toList.dropWhile (· != '\\'))
      if sameFold first "namespace" && !rest.isEmpty then
        Namespace.qualifyLocal ns.name (String.ofList (rest.toList.drop 1))
      else
        ((ns.imports.lookup (fold first)).map (· ++ rest)).getD
          (Namespace.qualifyLocal ns.name name) := by
  unfold Namespace.qualify
  split
  · rename_i full hfull
    rw [hfull] at h
    exact absurd rfl h
  · have hempty (s : List Char) : (String.ofList s).isEmpty = s.isEmpty := by
      cases s <;> simp
    dsimp only
    rw [hempty, String.toList_ofList]
    split
    · rfl
    · split <;> rename_i hlookup <;> rw [hlookup] <;> rfl

theorem qualify_eq (ns : Namespace) (name : String) :
    (qualify ns name : Checked ε String) = .ok (ns.qualify name) := by
  unfold qualify
  by_cases hfull : name.toList.head? = some '\\'
  · obtain ⟨full, hname⟩ := List.head?_eq_some_iff.mp hfull
    unfold Namespace.qualify
    rw [hname]
    rfl
  · rw [if_neg (by simpa using hfull), firstSegment_eq, ok_bind, qualify_of_head hfull]
    dsimp only
    split
    · rename_i hrelative
      have hrest : name.toList.dropWhile (· != '\\') ≠ [] := by
        intro hnil
        rw [hnil] at hrelative
        simp at hrelative
      obtain ⟨r, hr⟩ : ∃ r, name.toList.dropWhile (· != '\\') = '\\' :: r := by
        obtain ⟨c, r, hcons⟩ := List.exists_cons_of_ne_nil hrest
        have hstop := List.head_dropWhile_not (· != '\\') hrest
        simp only [hcons, List.head_cons, bne_eq_false_iff_eq] at hstop
        exact ⟨r, hstop ▸ hcons⟩
      rw [hr, String.toList_ofList]
      have hstands : Stands (octets ('\\' :: r)) 1 r := (stands_zero _).next (by decide)
      rw [cut_rest hstands]
      rfl
    · cases ns.imports.lookup _ <;> rfl

theorem resolveWord_eq (ns : Namespace) (word : List Char) :
    (resolveWord ns word : Checked ε (List Char)) = .ok (ns.resolveWord word) := by
  unfold resolveWord Namespace.resolveWord
  rw [qualify_eq]
  split
  · rfl
  · split <;> rfl

theorem resolveWords_eq (ns : Namespace) (word s : List Char) :
    (resolveWords ns word s : Checked ε (List Char)) = .ok (ns.resolveWords word s) := by
  induction s generalizing word with
  | nil => exact resolveWord_eq ns word.reverse
  | cons c r ih =>
    rw [resolveWords, Namespace.resolveWords, ih, ih, resolveWord_eq]
    split <;> rfl

theorem resolveType_eq (ns : Namespace) (type : String) :
    (resolveType ns type : Checked ε String) = .ok (ns.resolveType type) := by
  unfold resolveType
  rw [resolveWords_eq]
  rfl

/-! ### Records -/

/-- What is done to the written type of a property or parameter, if it has one. -/
private theorem mapM_resolveType (ns : Namespace) (type : Option String) :
    (type.mapM (resolveType ns) : Checked ε (Option String)) = .ok (type.map ns.resolveType) := by
  cases type with
  | none => rfl
  | some type =>
    rw [Option.mapM_some, resolveType_eq]
    rfl

theorem resolveClass_eq (records : List Namespace) (c : Class) :
    (resolveClass records c : Checked ε Class) = .ok (Outline.resolveClass records c) := by
  have hproperty (ns : Namespace) (x : Property) :
      (resolveProperty ns x : Checked ε Property) = .ok (Outline.resolveProperty ns x) := by
    unfold resolveProperty
    rw [mapM_resolveType]
    rfl
  have hnames (ns : Namespace) (names : List String) :
      (names.mapM (qualify ns) : Checked ε (List String)) = .ok (names.map ns.qualify) :=
    mapM_eq_ok fun name _ => qualify_eq ns name
  unfold resolveClass
  dsimp only
  rw [hnames, ok_bind, hnames, ok_bind, hnames, ok_bind, mapM_eq_ok fun x _ => hproperty _ x]
  rfl

theorem resolveFunction_eq (records : List Namespace) (f : Function) :
    (resolveFunction records f : Checked ε Function) = .ok (Outline.resolveFunction records f) := by
  have hparameter (ns : Namespace) (x : Parameter) :
      (resolveParameter ns x : Checked ε Parameter) = .ok (Outline.resolveParameter ns x) := by
    unfold resolveParameter
    rw [mapM_resolveType]
    rfl
  unfold resolveFunction
  dsimp only
  rw [mapM_eq_ok fun x _ => hparameter _ x]
  rfl

theorem finishedNamespaces_eq (p : Pass) (size : Nat) :
    (finishedNamespaces p size : Checked ε (List Namespace)) = .ok (p.finishedNamespaces size) := by
  unfold finishedNamespaces Pass.finishedNamespaces
  by_cases hsize : size == 0
  · rw [if_pos hsize, if_pos hsize]
    rfl
  · have hpos : 1 ≤ size := Nat.one_le_iff_ne_zero.mpr (by simpa using hsize)
    rw [if_neg hsize, if_neg hsize, sub_eq_ok hpos]
    rfl

theorem finish_eq (size : Nat) (b : Builder) : (finish size b : Checked ε Outline) = .ok {
    brackets := b.brackets
    namespaces := b.toPass.finishedNamespaces size
    classes := b.classes.map (Outline.resolveClass (b.toPass.finishedNamespaces size))
    functions := b.functions.map (Outline.resolveFunction (b.toPass.finishedNamespaces size))
    constants := b.constants.toList } := by
  unfold finish
  rw [finishedNamespaces_eq, ok_bind, mapM_eq_ok fun c _ => resolveClass_eq _ c, ok_bind,
    mapM_eq_ok fun f _ => resolveFunction_eq _ f, ok_bind, ← Array.toList_map, ← Array.toList_map]
  rfl

/-! ### Outlines -/

/-- The pass over a file finds its pairs, its table of brackets and the state behind its tokens. -/
theorem pass_eq (hindexed : Indexed ts) (hlong : LongOperators ts) :
    pass ts = ofExcept ((Bracket.pairs ts).map fun found =>
      ⟨Pass.final ts, [], Bracket.table ts.length found⟩) := by
  have hcarries : Carries ts (.start ts.length) [] :=
    ⟨rfl, fun t ht => absurd ht List.not_mem_nil, rfl, Array.size_replicate⟩
  have hpass := passFrom_eq hindexed hlong hcarries (Pass.sound_start ts.length)
    (Nat.zero_le ts.length)
  rw [List.drop_zero, Lexeme.ahead_zero, Lexeme.behind_zero] at hpass
  exact hpass

theorem outline_eq (hindexed : Indexed ts) (hlong : LongOperators ts) :
    outline ts = ofExcept (Outline.ofTokens ts) := by
  unfold outline Outline.ofTokens
  rw [pass_eq hindexed hlong]
  cases Bracket.pairs ts with
  | error e => rfl
  | ok found =>
    change finish ts.length _ = _
    rw [finish_eq]
    rfl

end PhpLint.Checked
