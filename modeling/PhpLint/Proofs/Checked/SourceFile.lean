import PhpLint.Proofs.Checked.Resolution
import PhpLint.Proofs.Checked.Stream
import PhpLint.Proofs.Model.Owner

/-!
A file as a whole: its tokens, its outline and the tables of what is around each token. A file of
fewer than `2 ^ 32` lines is read without a trap.
-/
namespace PhpLint.Checked

open PhpLint.Bracket (Indexed)
open Lexeme (LongOperators)
open Outline Token

variable {ε : Type}

/-! ### Files by positions -/

/-- Positions from `first` to `last` in a table take the value `id`. -/
def fillRange (table : Array (Option Nat)) (id first last : Nat) :
    Checked ε (Array (Option Nat)) :=
  if first ≤ last + 1 ∧ last + 1 ≤ table.size then .ok (PhpLint.fillRange table id first last)
  else trap .range

/-- Lays down the extent of a record with its number. -/
def layDown (size : Nat) (table : Array (Option Nat)) (record : (Nat × Nat) × Nat) :
    Checked ε (Array (Option Nat)) := do
  if size ≤ record.1.1 then return table
  else
    let last ← sub size 1
    fillRange table record.2 record.1.1 (min record.1.2 last)

def ownerTable (size : Nat) (extents : List (Nat × Nat)) : Checked ε (Array (Option Nat)) :=
  (extents.zipIdx.mergeSort fun a b => a.1.1 ≤ b.1.1).foldlM (layDown size)
    (Array.replicate size none)

def ofOutline (name : String) (tokens : List Token) (outline : Outline) : Checked ε SourceFile := do
  let size := tokens.length
  let classes := outline.classes.toList.map fun c => (c.index, c.bodyEnds)
  let functions := outline.functions.toList.map fun f => (f.index, f.bodyEnds)
  return { SourceFile.ofOutline name tokens outline with
    classOwner := ← ownerTable size classes
    functionOwner := ← ownerTable size functions }

/-- Reads a file of the language. -/
def parse (name : String) (content : ByteArray) : Checked ParseError SourceFile := do
  let tokens ← mapFault Fault.toParseError (tokenize content)
  let outline ← mapFault Bracket.Mismatch.toParseError (outline tokens)
  ofOutline name tokens outline

/-- The first token after position `i` that carries syntax. -/
def nextSignificant (file : SourceFile) (i : Nat) : Checked ε (Option Token) := do
  if i + 1 ≤ file.tokens.size then
    let after ← sliceFrom file.tokens.toList (i + 1)
    return after.find? (!·.isSpace)
  else return none

/-- The last token before position `i` that carries syntax. -/
def prevSignificant (file : SourceFile) (i : Nat) : Checked ε (Option Token) := do
  let before ← slice file.tokens.toList 0 (min i file.tokens.size)
  return before.reverse.find? (!·.isSpace)

/-! ### Tables -/

/-- An extent that starts behind the file covers nothing. -/
theorem fillRange_of_le {table : Array (Option Nat)} {first : Nat} (h : table.size ≤ first)
    (id last : Nat) : PhpLint.fillRange table id first last = table := by
  have hbehind : ∀ i ∈ List.range' first (last + 1 - first), table.size ≤ i := fun i hi =>
    Nat.le_trans h (List.mem_range'_1.mp hi).1
  unfold PhpLint.fillRange
  generalize List.range' first (last + 1 - first) = positions at hbehind ⊢
  induction positions with
  | nil => rfl
  | cons i is ih =>
    rw [List.foldl_cons, Array.setIfInBounds_eq_of_size_le (hbehind i List.mem_cons_self)]
    exact ih fun j hj => hbehind j (List.mem_cons_of_mem i hj)

theorem layDown_eq {size : Nat} {table : Array (Option Nat)} (hsize : table.size = size)
    {record : (Nat × Nat) × Nat} (hextent : record.1.1 ≤ record.1.2) :
    (layDown size table record : Checked ε (Array (Option Nat))) =
      .ok (PhpLint.fillRange table record.2 record.1.1 (min record.1.2 (size - 1))) := by
  unfold layDown
  by_cases hfirst : size ≤ record.1.1
  · rw [if_pos hfirst, fillRange_of_le (hsize ▸ hfirst)]
    rfl
  · rw [if_neg hfirst, sub_eq_ok (by omega), ok_bind]
    exact if_pos (by omega)

private theorem foldlM_layDown {size : Nat} {records : List ((Nat × Nat) × Nat)}
    (h : ∀ record ∈ records, record.1.1 ≤ record.1.2) {table : Array (Option Nat)}
    (hsize : table.size = size) :
    (records.foldlM (layDown size) table : Checked ε (Array (Option Nat))) =
      .ok (records.foldl (fun table record =>
        PhpLint.fillRange table record.2 record.1.1 (min record.1.2 (size - 1))) table) := by
  induction records generalizing table with
  | nil => rfl
  | cons record records ih =>
    rw [List.foldlM_cons, layDown_eq hsize (h record List.mem_cons_self), ok_bind,
      ih (fun r hr => h r (List.mem_cons_of_mem record hr)) (by rw [size_fillRange, hsize])]
    rfl

theorem ownerTable_eq {extents : List (Nat × Nat)} (h : ∀ extent ∈ extents, extent.1 ≤ extent.2)
    (size : Nat) : (ownerTable size extents : Checked ε (Array (Option Nat))) =
      .ok (PhpLint.ownerTable size extents) := by
  have hsorted : ∀ record ∈ extents.zipIdx.mergeSort fun a b => a.1.1 ≤ b.1.1,
      record.1.1 ≤ record.1.2 := by
    intro record hrecord
    exact h record.1 (List.fst_mem_of_mem_zipIdx ((List.mergeSort_perm _ _).mem_iff.mp hrecord))
  exact foldlM_layDown hsorted Array.size_replicate

/-! ### Files -/

theorem ofOutline_eq (name : String) (ts : List Token) {outline : Outline}
    (hclasses : ∀ c ∈ outline.classes, c.index ≤ c.bodyEnds)
    (hfunctions : ∀ f ∈ outline.functions, f.index ≤ f.bodyEnds) :
    (ofOutline name ts outline : Checked ε SourceFile) =
      .ok (SourceFile.ofOutline name ts outline) := by
  unfold ofOutline
  dsimp only
  rw [ownerTable_eq, ok_bind, ownerTable_eq, ok_bind]
  · rfl
  · intro extent hextent
    obtain ⟨f, hf, rfl⟩ := List.mem_map.mp hextent
    exact hfunctions f (Array.mem_toList_iff.mp hf)
  · intro extent hextent
    obtain ⟨c, hc, rfl⟩ := List.mem_map.mp hextent
    exact hclasses c (Array.mem_toList_iff.mp hc)

/-- In a file of fewer than `2 ^ 32` lines nothing goes wrong, and this is the file that is read. -/
theorem parse_eq (name : String) {content : ByteArray} (hlines : 1 + newlines content < 2 ^ 32) :
    parse name content = ofExcept (SourceFile.parse name content) := by
  unfold parse SourceFile.parse
  rw [tokenize_eq hlines]
  cases htokens : ofContent content with
  | error e => rfl
  | ok ts =>
    have htiles := tiles_of_ofContent htokens
    change (mapFault Bracket.Mismatch.toParseError (Checked.outline ts) >>= fun outline =>
      ofOutline name ts outline) = ofExcept (
        ((Outline.ofTokens ts).mapError Bracket.Mismatch.toParseError) >>= fun outline =>
          pure (SourceFile.ofOutline name ts outline))
    rw [outline_eq htiles.index (longOperators_of_ofContent htokens)]
    cases houtline : Outline.ofTokens ts with
    | error e => rfl
    | ok outline =>
      obtain ⟨found, hfound, rfl⟩ := exists_ofFinal_of_ofTokens houtline
      have haccepted := accepted_of_ofContent htokens hfound
      refine ofOutline_eq name ts (fun c hc => ?_) fun f hf => ?_
      · have hfits := classFits_ofFinal haccepted c hc
        exact Nat.le_trans (Nat.le_of_lt hfits.index) hfits.body
      · exact Nat.le_of_lt (functionFits_ofFinal haccepted f hf).index

/-! ### Files that have been read -/

/-- What a file that has been read is known to be like. -/
structure WellFormed (file : SourceFile) : Prop where
  indexed : Indexed file.tokens.toList
  functions : ∀ f ∈ file.functions, FunctionFits file.tokens.size f
  /-- What pairs with a parenthesis that opens lies behind it. -/
  pairs : ∀ (i j : Nat) (t : Token), file.tokens[i]? = some t → t.is "(" →
    file.pairedBracket i = some j → i < j ∧ j < file.tokens.size

theorem wellFormed_of_parse {name : String} {content : ByteArray} {file : SourceFile}
    (h : SourceFile.parse name content = .ok file) : WellFormed file := by
  obtain ⟨ts, found, _, ha, rfl⟩ := parse_eq_ok h
  refine ⟨ha.indexed, functionFits_ofFinal ha, fun i j t ht hopen hpair => ?_⟩
  have ht : ts[i]? = some t := by rwa [← List.getElem?_toArray]
  have hopen := Lexeme.isOpenBracket_of_is ha.long (List.mem_of_getElem? ht) (Or.inl rfl) hopen
  exact ha.lt_of_partners ht hopen ((ha.pairedBracket_iff name).mp hpair)

/-! ### Neighbours -/

theorem significantFrom_eq (file : SourceFile) (i : Nat) :
    file.significantFrom i = (file.tokens.toList.drop i).find? (!·.isSpace) := by
  rw [SourceFile.significantFrom]
  by_cases hi : i < file.tokens.size
  · have hcons : file.tokens.toList.drop i =
        file.tokens[i] :: file.tokens.toList.drop (i + 1) := by
      rw [List.drop_eq_getElem_cons (by simpa using hi)]
      simp
    rw [dif_pos hi, hcons, List.find?_cons, significantFrom_eq file (i + 1)]
    dsimp only
    cases file.tokens[i].isSpace <;> rfl
  · rw [dif_neg hi, List.drop_eq_nil_of_le (by simpa using hi)]
    rfl
termination_by file.tokens.size - i

theorem significantBelow_eq (file : SourceFile) {n : Nat} (hn : n ≤ file.tokens.size) :
    file.significantBelow n = (file.tokens.toList.take n).reverse.find? (!·.isSpace) := by
  induction n with
  | zero => rfl
  | succ n ih =>
    have htake : file.tokens.toList.take (n + 1) =
        file.tokens.toList.take n ++ [file.tokens[n]] := by
      rw [List.take_add_one]
      simp [Nat.lt_of_succ_le hn]
    rw [htake, SourceFile.significantBelow, Array.getElem?_eq_getElem hn, ih (by omega),
      List.reverse_append, List.reverse_singleton, List.singleton_append, List.find?_cons]
    dsimp only
    cases file.tokens[n].isSpace <;> rfl

variable {file : SourceFile}

theorem nextSignificant_eq (file : SourceFile) (i : Nat) :
    (nextSignificant file i : Checked ε (Option Token)) = .ok (file.nextSignificant i) := by
  unfold nextSignificant SourceFile.nextSignificant
  rw [significantFrom_eq]
  by_cases hi : i + 1 ≤ file.tokens.size
  · rw [if_pos hi, sliceFrom_eq_ok (by simpa using hi)]
    rfl
  · rw [if_neg hi, List.drop_eq_nil_of_le (by simp; omega)]
    rfl

theorem prevSignificant_eq (file : SourceFile) (i : Nat) :
    (prevSignificant file i : Checked ε (Option Token)) = .ok (file.prevSignificant i) := by
  have hle : min i file.tokens.size ≤ file.tokens.size := Nat.min_le_right _ _
  unfold prevSignificant SourceFile.prevSignificant
  rw [slice_eq_ok (Nat.zero_le _) (by simp), significantBelow_eq file hle]
  rfl

/-- What is found next is a token of the file. -/
theorem getElem?_of_nextSignificant (h : WellFormed file) {i : Nat} {t : Token}
    (ht : file.nextSignificant i = some t) : file.tokens[t.index]? = some t := by
  unfold SourceFile.nextSignificant at ht
  rw [significantFrom_eq] at ht
  have hmem := List.mem_of_mem_drop (List.mem_of_find?_eq_some ht)
  obtain ⟨k, hk⟩ := List.mem_iff_getElem?.mp hmem
  rw [Lexeme.index_of_getElem? h.indexed hk, ← Array.getElem?_toList, hk]

end PhpLint.Checked
