import PhpLint.Document.DeclarationIndex
import PhpLint.Proofs.Dict
import PhpLint.Proofs.Json.RoundTrip
import PhpLint.Proofs.Model.Spelling

/-!
The pages of declarations: one for each name that is declared, with each declaration of the name
on it once.
-/
namespace PhpLint

/-! ### Values with one item a line -/

namespace Json

/-- A quoted text is known from what begins with it. -/
theorem eq_of_quote_append_eq {a b x y : String} (h : quote a ++ x = quote b ++ y) : a = b := by
  have hoctets (s r : String) : Text.octets (quote s ++ r).toList =
      '"' :: (inside s ++ '"' :: Text.octets r.toList) := by
    have hquote : Text.octets (quote s).toList = '"' :: inside s ++ ['"'] := written_str s
    rw [String.toList_append, Text.octets_append, hquote]
    simp
  have htext := congrArg (fun s => Text.octets s.toList) h
  rw [hoctets a x, hoctets b y, List.cons.injEq] at htext
  have hlength := stringLength_inside a (Text.octets x.toList)
  rw [htext.2, stringLength_inside, Option.some.injEq] at hlength
  have hinside := (List.append_inj htext.2 hlength.symm).1
  have hname := text?_inside a
  rw [hinside, text?_inside, Option.some.injEq] at hname
  exact hname.symm

theorem block_cons (opening closing : String) (level : Nat) (item : String) (items : List String) :
    ∃ more, block opening closing level (item :: items) =
      opening ++ newLine (level + 1) ++ item ++ more := by
  unfold block
  rw [List.isEmpty_cons, if_neg Bool.false_ne_true]
  dsimp only
  cases items with
  | nil =>
    rw [String.intercalate_singleton]
    exact ⟨newLine level ++ closing, String.append_assoc⟩
  | cons item' items =>
    rw [String.intercalate_cons_cons]
    refine ⟨"," ++ newLine (level + 1) ++
      ("," ++ newLine (level + 1)).intercalate (item' :: items) ++ newLine level ++ closing, ?_⟩
    simp only [String.append_assoc]

/-- The first field of the first value is written at the front. -/
theorem pretty_arr_obj (name text : String) (fields : List (String × Json)) (js : List Json) :
    ∃ more, (arr (obj ((name, str text) :: fields) :: js)).pretty 0 =
      "[" ++ newLine 1 ++ ("\x7b" ++ newLine 2 ++ (quote name ++ ": " ++ quote text)) ++ more := by
  rw [pretty, prettyElements, pretty, prettyFields, pretty]
  obtain ⟨more, hfields⟩ := block_cons "\x7b" "\x7d" (0 + 1) (quote name ++ ": " ++ quote text)
    (prettyFields (0 + 1 + 1) fields)
  obtain ⟨more', helements⟩ := block_cons "[" "]" 0
    (block "\x7b" "\x7d" (0 + 1) ((quote name ++ ": " ++ quote text) ::
      prettyFields (0 + 1 + 1) fields)) (prettyElements (0 + 1) js)
  rw [helements, hfields]
  exact ⟨more ++ more', by simp only [String.append_assoc]⟩

end Json

namespace DeclarationIndex

/-- A class with a name, or a function with a name outside classes. -/
structure Declared where
  file : SourceFile
  name : String
  kind : String
  /-- The keyword. -/
  index : Nat

/-- What a file declares: classes before functions. -/
def declared (file : SourceFile) : List Declared :=
  (file.classes.toList.filterMap fun c =>
      if c.nameIndex.isSome then some ⟨file, c.name, c.kind.name, c.index⟩ else none)
    ++ file.functions.toList.filterMap fun f =>
      if f.classId.isNone then f.name.map (⟨file, ·, "function", f.index⟩) else none

/-- A value of a page is about a declaration. -/
def Documents (d : Declared) (content : Json) : Prop :=
  ∃ more, content = .obj (header d.file d.name d.kind d.index ++ more)

/-- Pages under rising names, one for each name that is declared, that hold each declaration of the
name once and nothing else. -/
structure Indexes (files : List SourceFile) (pages : List Page) : Prop where
  rising : pages.Pairwise (·.objectId < ·.objectId)
  covers : ∀ name, name ∈ pages.map (·.objectId) ↔ name ∈ (files.flatMap declared).map (·.name)
  documents : ∀ page ∈ pages, ∃ contents, page.content = (Json.arr contents).pretty 0 ∧
    List.Forall₂ Documents ((files.flatMap declared).filter (·.name == page.objectId)) contents

variable {files : List SourceFile} {file : SourceFile}

/-! ### Entries -/

/-- An entry stands for a declaration. -/
structure StandsFor (d : Declared) (e : Entry) : Prop where
  objectId : e.objectId = d.name
  documents : Documents d e.content

/-- Entries that are made wherever there is a declaration. -/
private theorem forall₂_filterMap {α : Type} {f : α → Option Declared} {g : α → Option Entry}
    {l : List α} (h : ∀ a ∈ l, Option.Rel StandsFor (f a) (g a)) :
    List.Forall₂ StandsFor (l.filterMap f) (l.filterMap g) := by
  induction l with
  | nil => exact .nil
  | cons a l ih =>
    have hrest := ih fun b hb => h b (List.mem_cons_of_mem a hb)
    have hfirst := h a List.mem_cons_self
    rw [List.filterMap_cons, List.filterMap_cons]
    generalize f a = d at hfirst ⊢
    generalize g a = e at hfirst ⊢
    cases hfirst with
    | none => exact hrest
    | some hstands => exact .cons hstands hrest

theorem standsFor_class (file : SourceFile) (c : Class) :
    Option.Rel StandsFor
      (if c.nameIndex.isSome then some ⟨file, c.name, c.kind.name, c.index⟩ else none)
      (entryOfClass? file c) := by
  unfold entryOfClass?
  cases c.nameIndex with
  | none => exact .none
  | some nameIndex =>
    refine .some ⟨rfl, ?_⟩
    dsimp only
    simp only [List.append_assoc]
    exact ⟨_, rfl⟩

/-- Functions outside classes have the token of their name. -/
theorem standsFor_function (hparsed : file.IsParsed) {f : Function} (hf : f ∈ file.functions) :
    Option.Rel StandsFor
      (if f.classId.isNone then f.name.map (⟨file, ·, "function", f.index⟩) else none)
      (entryOfFunction? file f) := by
  unfold entryOfFunction?
  cases hclass : f.classId with
  | some id => exact .none
  | none =>
    cases hname : f.name with
    | none => exact .none
    | some name =>
      obtain ⟨n, hn⟩ := hparsed.exists_nameIndex hf hclass hname
      rw [hn]
      exact .some ⟨rfl, _, rfl⟩

theorem standsFor_entries (hparsed : file.IsParsed) :
    List.Forall₂ StandsFor (declared file) (entries file) := by
  unfold declared entries
  refine List.rel_append ?_ ?_
  · exact forall₂_filterMap fun c _ => standsFor_class file c
  · exact forall₂_filterMap fun f hf => standsFor_function hparsed (Array.mem_toList_iff.mp hf)

theorem standsFor_flatMap (hparsed : ∀ file ∈ files, file.IsParsed) :
    List.Forall₂ StandsFor (files.flatMap declared) (files.flatMap entries) := by
  induction files with
  | nil => exact .nil
  | cons file files ih =>
    rw [List.flatMap_cons, List.flatMap_cons]
    refine List.rel_append (standsFor_entries (hparsed file List.mem_cons_self)) (ih ?_)
    exact fun file' hfile' => hparsed file' (List.mem_cons_of_mem file hfile')

/-! ### Pages -/

/-- The values of the page of a name. -/
def contentsOf (files : List SourceFile) (name : String) : List Json :=
  ((files.flatMap entries).filter (·.objectId == name)).map (·.content)

/-- A page is there for each name of an entry, with the values of all its entries. -/
theorem mem_pages {page : Page} : page ∈ pages files ↔
    page.objectId ∈ (files.flatMap entries).map (·.objectId) ∧
      page.content = (Json.arr (contentsOf files page.objectId)).pretty 0 := by
  have hsorted : Dict.Sorted ((files.flatMap entries).foldl
      (fun (d : Dict (List Json)) e => d.update e.objectId [] (· ++ [e.content])) []) :=
    Dict.Sorted.foldl_update Dict.sorted_nil _ _ _ _
  unfold pages
  rw [List.mem_map]
  constructor
  · rintro ⟨⟨name, contents⟩, hmem, rfl⟩
    rw [hsorted.mem_iff_get?, Dict.get?_foldl_update] at hmem
    split_ifs at hmem with hany
    · obtain ⟨e, he, hname⟩ := List.any_eq_true.mp hany
      refine ⟨List.mem_map.mpr ⟨e, he, eq_of_beq hname⟩, ?_⟩
      rw [← Option.some.inj hmem]
      rfl
    · contradiction
  · rintro ⟨hname, hcontent⟩
    obtain ⟨e, he, heq⟩ := List.mem_map.mp hname
    refine ⟨(page.objectId, contentsOf files page.objectId), ?_, ?_⟩
    · rw [hsorted.mem_iff_get?, Dict.get?_foldl_update, if_pos]
      · rfl
      · exact List.any_eq_true.mpr ⟨e, he, beq_iff_eq.mpr heq⟩
    · dsimp only
      rw [← hcontent]

theorem rising_pages (files : List SourceFile) :
    (pages files).Pairwise (·.objectId < ·.objectId) := by
  unfold pages
  rw [List.pairwise_map]
  exact Dict.Sorted.foldl_update Dict.sorted_nil _ _ _ _

theorem forall₂_contentsOf (hparsed : ∀ file ∈ files, file.IsParsed) (name : String) :
    List.Forall₂ Documents ((files.flatMap declared).filter (·.name == name))
      (contentsOf files name) := by
  unfold contentsOf
  rw [List.forall₂_map_right_iff]
  have hfilter := List.rel_filter (R := StandsFor) (p := (·.name == name))
    (q := (·.objectId == name))
    (fun d e hstands => by simp only [hstands.objectId]) (standsFor_flatMap hparsed)
  exact hfilter.imp fun d e hstands => hstands.documents

theorem names_entries (hparsed : ∀ file ∈ files, file.IsParsed) :
    (files.flatMap declared).map (·.name) = (files.flatMap entries).map (·.objectId) := by
  have hsame : List.Forall₂ (· = ·) ((files.flatMap declared).map (·.name))
      ((files.flatMap entries).map (·.objectId)) := by
    rw [List.forall₂_map_left_iff, List.forall₂_map_right_iff]
    exact (standsFor_flatMap hparsed).imp fun d e hstands => hstands.objectId.symm
  rwa [List.forall₂_eq_eq_eq] at hsame

/-- The pages are an index of what the files declare. -/
theorem indexes_pages (hparsed : ∀ file ∈ files, file.IsParsed) :
    Indexes files (pages files) where
  rising := rising_pages files
  covers name := by
    rw [names_entries hparsed, List.mem_map]
    constructor
    · rintro ⟨page, hpage, rfl⟩
      exact (mem_pages.mp hpage).1
    · intro hname
      exact ⟨⟨name, (Json.arr (contentsOf files name)).pretty 0⟩, mem_pages.mpr ⟨hname, rfl⟩, rfl⟩
  documents page hpage :=
    ⟨contentsOf files page.objectId, (mem_pages.mp hpage).2,
      forall₂_contentsOf hparsed page.objectId⟩

/-- Two pages of one name are one page. -/
theorem Indexes.eq_of_objectId_eq {pages : List Page} (h : Indexes files pages) {page page' : Page}
    (hpage : page ∈ pages) (hpage' : page' ∈ pages) (heq : page.objectId = page'.objectId) :
    page = page' := by
  have hnodup : (pages.map (·.objectId)).Nodup :=
    List.pairwise_map.mpr (h.rising.imp fun hlt => ne_of_lt hlt)
  exact List.inj_on_of_nodup_map hnodup hpage hpage' heq

/-- Every name that source text declares is a full one. -/
theorem isFullName_of_mem_declared (hparsed : file.IsParsed) {d : Declared}
    (hd : d ∈ declared file) : IsFullName d.name := by
  unfold declared at hd
  rcases List.mem_append.mp hd with hd | hd
  · obtain ⟨c, hc, hclass⟩ := List.mem_filterMap.mp hd
    split_ifs at hclass with hnamed
    rw [← Option.some.inj hclass]
    exact hparsed.isFullName_class (Array.mem_toList_iff.mp hc) hnamed
  · obtain ⟨f, hf, hfunction⟩ := List.mem_filterMap.mp hd
    split_ifs at hfunction with hfree
    obtain ⟨name, hname, rfl⟩ := Option.map_eq_some_iff.mp hfunction
    exact hparsed.isFullName_function (Array.mem_toList_iff.mp hf)
      (Option.isNone_iff_eq_none.mp hfree) hname

theorem Indexes.isFullName {pages : List Page} (h : Indexes files pages)
    (hparsed : ∀ file ∈ files, file.IsParsed) {page : Page} (hpage : page ∈ pages) :
    IsFullName page.objectId := by
  obtain ⟨d, hd, hname⟩ := List.mem_map.mp
    ((h.covers page.objectId).mp (List.mem_map_of_mem hpage))
  obtain ⟨file, hfile, hd⟩ := List.mem_flatMap.mp hd
  rw [← hname]
  exact isFullName_of_mem_declared (hparsed file hfile) hd

/-- The values of a page begin with its name. -/
theorem Indexes.exists_content {pages : List Page} (h : Indexes files pages) {page : Page}
    (hpage : page ∈ pages) : ∃ more, page.content =
      "[" ++ Json.newLine 1 ++ ("\x7b" ++ Json.newLine 2 ++
        (Json.quote "name" ++ ": " ++ Json.quote page.objectId)) ++ more := by
  obtain ⟨contents, hcontent, hdocuments⟩ := h.documents page hpage
  obtain ⟨d, hd, hname⟩ := List.mem_map.mp
    ((h.covers page.objectId).mp (List.mem_map_of_mem hpage))
  have hmem : d ∈ (files.flatMap declared).filter (·.name == page.objectId) :=
    List.mem_filter.mpr ⟨hd, beq_iff_eq.mpr hname⟩
  obtain ⟨first, rest, hfirst⟩ := List.exists_cons_of_ne_nil (List.ne_nil_of_mem hmem)
  have hsame : first ∈ (files.flatMap declared).filter (·.name == page.objectId) := by
    rw [hfirst]
    exact List.mem_cons_self
  rw [hfirst] at hdocuments
  obtain ⟨_, contents, ⟨fields, rfl⟩, _, rfl⟩ := List.forall₂_cons_left_iff.mp hdocuments
  rw [hcontent, ← eq_of_beq (List.mem_filter.mp hsame).2]
  exact Json.pretty_arr_obj "name" first.name _ contents

/-- Pages of different names have different contents. -/
theorem Indexes.objectId_eq_of_content_eq {pages : List Page} (h : Indexes files pages)
    {page page' : Page} (hpage : page ∈ pages) (hpage' : page' ∈ pages)
    (heq : page.content = page'.content) : page.objectId = page'.objectId := by
  obtain ⟨more, hcontent⟩ := h.exists_content hpage
  obtain ⟨more', hcontent'⟩ := h.exists_content hpage'
  rw [hcontent, hcontent'] at heq
  simp only [String.append_assoc, String.append_right_inj] at heq
  exact Json.eq_of_quote_append_eq heq

end DeclarationIndex

end PhpLint
