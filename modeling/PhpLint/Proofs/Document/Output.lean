import PhpLint.Plugin.Bundled
import PhpLint.Proofs.Document.PagePath
import PhpLint.Proofs.Document.Pages
import PhpLint.Proofs.Document.Writing

/-!
The pages of the declarations in a project: an index of what is declared, in files that are told
apart as far as the names on the way to them are.
-/
namespace PhpLint

/-! ### What the documentation is about -/

/-- The files of a provider that can be read and parsed. -/
def Provider.sourceFiles (r : Registry) (provider : Provider) : List SourceFile :=
  match provider.list with
  | .error _ => []
  | .ok names => (names.filter r.canParse).filterMap fun name =>
      (provider.content name).toOption.bind fun content => (r.parse name content).toOption

variable {r : Registry} {ignoredClasses : List String} {provider : Provider}

theorem Registry.eq_of_addBundled (h : Registry.empty.addBundled ignoredClasses = (r, none)) :
    r = ⟨[("php", .php)], bundledPlugins ignoredClasses⟩ :=
  (Prod.mk.inj h).1.symm

theorem Registry.eq_php_of_parserFor? (h : Registry.empty.addBundled ignoredClasses = (r, none))
    {name : String} {parser : Parser} (hparser : r.parserFor? name = some parser) :
    parser = .php := by
  rw [eq_of_addBundled h] at hparser
  obtain ⟨extension, _, hget⟩ := Option.bind_eq_some_iff.mp hparser
  unfold Dict.get? at hget
  rw [List.lookup_cons, List.lookup_nil] at hget
  split at hget
  · exact (Option.some.inj hget).symm
  · exact nomatch hget

/-- Every file is parsed as source text. -/
theorem isParsed_of_mem (h : Registry.empty.addBundled ignoredClasses = (r, none))
    {file : SourceFile} (hfile : file ∈ provider.sourceFiles r) :
    file.IsParsed := by
  unfold Provider.sourceFiles at hfile
  split at hfile
  · exact absurd hfile List.not_mem_nil
  obtain ⟨name, _, hname⟩ := List.mem_filterMap.mp hfile
  obtain ⟨content, _, hparse⟩ := Option.bind_eq_some_iff.mp hname
  refine ⟨name, content, ?_⟩
  unfold Registry.parse at hparse
  split at hparse
  · rename_i parser hparser
    rw [Registry.eq_php_of_parserFor? h hparser] at hparse
    cases hresult : Parser.php.parse name content with
    | error e =>
      rw [hresult] at hparse
      exact nomatch hparse
    | ok file' =>
      rw [hresult] at hparse
      rw [← Option.some.inj hparse]
      exact except_mapError_eq_ok.mp hresult
  · exact nomatch hparse

namespace DocumentationOutput

variable {o : DocumentationOutput}

theorem pages_addLinks (o : DocumentationOutput) (file : SourceFile) (id : String)
    (d : Documentation) : (o.addLinks file id d).pages = o.pages := by
  unfold addLinks
  split <;> rfl

theorem pages_addFiles (r : Registry) (o : DocumentationOutput)
    (files : List (String × Except ParserFailure SourceFile)) :
    (addFiles r o files).pages = o.pages := by
  have hlinks (ds : List (String × Documentation)) (file : SourceFile)
      (o : DocumentationOutput) :
      (ds.foldl (fun o entry => o.addLinks file entry.1 entry.2) o).pages = o.pages := by
    induction ds generalizing o with
    | nil => rfl
    | cons d ds ih => rw [List.foldl_cons, ih, pages_addLinks]
  induction files generalizing o with
  | nil => rfl
  | cons file files ih =>
    obtain ⟨name, file | file⟩ := file
    · rw [addFiles, ih]
      rfl
    · rw [addFiles, ih]
      exact hlinks _ file o

theorem pages_addPages {d : Documentation} (hd : DeclarationIndex.plugin.documentation = some d)
    (ho : o.pages = []) (files : List SourceFile) :
    (o.addPages files DeclarationIndex.id d).pages =
      [(DeclarationIndex.id, DeclarationIndex.pages files)] := by
  cases hd
  have hlinked : files.filter (fun file =>
      (Except.ok (ε := PluginFailure) (DeclarationIndex.links file)).isOk) = files :=
    List.filter_eq_self.mpr fun _ _ => rfl
  unfold addPages
  dsimp only
  rw [hlinked, ho]
  rfl

/-- The pages of a project are those of its declarations. -/
theorem pages_of_generate (hr : Registry.empty.addBundled ignoredClasses = (r, none))
    (h : generate r provider = .ok o) :
    o.pages = [(DeclarationIndex.id, DeclarationIndex.pages (provider.sourceFiles r))] := by
  obtain ⟨names, hnames, h⟩ := except_bind_eq_ok.mp h
  obtain ⟨d, hd, hdocumentations⟩ : ∃ d, DeclarationIndex.plugin.documentation = some d ∧
      r.documentations = [(DeclarationIndex.id, d)] := by
    rw [Registry.eq_of_addBundled hr]
    exact ⟨_, rfl, rfl⟩
  have hfile : (fun name => ((provider.content name).toOption.map (name, ·)).bind
      ((fun x => x.2.toOption) ∘ fun x => (x.1, r.parse x.1 x.2))) =
      fun name => (provider.content name).toOption.bind fun content =>
        (r.parse name content).toOption := by
    funext name
    cases (provider.content name).toOption <;> rfl
  unfold Provider.sourceFiles
  rw [← except_pure_eq_ok.mp h, hnames, hdocumentations, List.foldl_cons, List.foldl_nil,
    pages_addPages hd (pages_addFiles r empty _), List.filterMap_map, List.filterMap_filterMap,
    hfile]

/-! ### What is written -/

/-- The path of a page of declarations. -/
def pathOf (directory extension : String) (page : Page) : String :=
  pagePath directory DeclarationIndex.id page.objectId extension

variable {directory extension : String} {t t' : FileTree} {l : Location} {pages : List Page}
  {page page' : Page}

theorem write_eq_ok {paths : List String} : o.write directory extension t = (.ok paths, t') ↔
    writeFiles (o.outputFiles directory extension) t = (.ok (), t') ∧
      paths = (o.outputFiles directory extension).map (·.1) := by
  unfold write
  dsimp only
  rcases writeFiles (o.outputFiles directory extension) t with ⟨e | _, t₁⟩
  · simp [Except.map]
  · simp [Except.map, and_comm, eq_comm]

theorem outputFiles_eq (ho : o.pages = [(DeclarationIndex.id, pages)]) :
    o.outputFiles directory extension =
      pages.map (fun page => (pathOf directory extension page, page.content)) ++
        [(Path.join directory "links.json", o.linkIndex.pretty 0)] := by
  unfold outputFiles
  rw [ho, List.flatMap_singleton]
  rfl

theorem isName_id : Path.IsName DeclarationIndex.id := by
  decide

theorem isName_links : Path.IsName "links.json" := by
  decide

/-- No page is written to the place of the links. -/
theorem placeOf_links_ne (hpage : IsFullName page.objectId) (hextension : '/' ∉ extension.toList)
    (directory : String) (workingDirectory : Location) :
    FileTree.placeOf workingDirectory (Path.join directory "links.json") ≠
      FileTree.placeOf workingDirectory (pathOf directory extension page) := by
  obtain ⟨front, last, _, hleads, _⟩ := hpage.leads_pagePath hextension isName_id directory
  intro hplace
  unfold pathOf at hplace
  rw [FileTree.placeOf_leads hleads,
    FileTree.placeOf_extends (Path.extends_join isName_links directory)] at hplace
  have hlength := congrArg List.length hplace
  simp at hlength

/-- The last of the pages that the same names lead to. -/
def lastNamed? (pages : List Page) (objectId : String) : Option Page :=
  (pages.filter (pathNames ·.objectId == pathNames objectId)).getLast?

theorem latest?_outputFiles (ho : o.pages = [(DeclarationIndex.id, pages)])
    (hfull : ∀ page ∈ pages, IsFullName page.objectId) (hextension : '/' ∉ extension.toList)
    (hpage : page ∈ pages) (workingDirectory : Location) :
    latest? workingDirectory (pathOf directory extension page)
        (o.outputFiles directory extension) =
      (lastNamed? pages page.objectId).map (·.content) := by
  have hlinks := placeOf_links_ne (hfull page hpage) hextension directory workingDirectory
  have hpages : pages.filter (fun page' =>
        FileTree.placeOf workingDirectory (pathOf directory extension page') ==
          FileTree.placeOf workingDirectory (pathOf directory extension page)) =
      pages.filter (pathNames ·.objectId == pathNames page.objectId) := by
    refine List.filter_congr fun page' hpage' => ?_
    rw [Bool.eq_iff_iff, beq_iff_eq, beq_iff_eq]
    unfold pathOf
    exact placeOf_pagePath_eq_iff (hfull page' hpage') (hfull page hpage) hextension isName_id
      directory workingDirectory
  unfold latest? lastNamed?
  rw [outputFiles_eq ho, List.filter_append, List.filter_cons_of_neg (by simpa using hlinks),
    List.filter_nil, List.append_nil, List.filter_map, List.getLast?_map, Option.map_map]
  simp only [Function.comp_def]
  rw [hpages]

/-- After a run that succeeds the file of a page holds the last page of its names. -/
theorem exists_lastNamed? (ho : o.pages = [(DeclarationIndex.id, pages)])
    (hfull : ∀ page ∈ pages, IsFullName page.objectId) (hextension : '/' ∉ extension.toList)
    (h : writeFiles (o.outputFiles directory extension) t = (.ok (), t')) (hpage : page ∈ pages) :
    ∃ last, lastNamed? pages page.objectId = some last ∧
      t'.read (pathOf directory extension page) = .ok last.content.toUTF8 := by
  have hmem : (pathOf directory extension page, page.content) ∈
      o.outputFiles directory extension := by
    rw [outputFiles_eq ho]
    exact List.mem_append_left _ (List.mem_map_of_mem hpage)
  obtain ⟨content, hlatest, hread⟩ := exists_latest? h hmem
  dsimp only at hlatest hread
  rw [latest?_outputFiles ho hfull hextension hpage] at hlatest
  obtain ⟨last, hlast, rfl⟩ := Option.map_eq_some_iff.mp hlatest
  exact ⟨last, hlast, hread⟩

theorem mem_of_lastNamed? {objectId : String} (h : lastNamed? pages objectId = some page) :
    page ∈ pages ∧ pathNames page.objectId = pathNames objectId := by
  obtain ⟨hmem, hnames⟩ := List.mem_filter.mp (List.mem_of_getLast? h)
  exact ⟨hmem, eq_of_beq hnames⟩

/-- Each file holds its own page if and only if no two pages have the same names. -/
theorem forall_read_iff_injOn {files : List SourceFile}
    (hindex : DeclarationIndex.Indexes files pages)
    (hlast : ∀ page ∈ pages, ∃ last, lastNamed? pages page.objectId = some last ∧
      t'.read (pathOf directory extension page) = .ok last.content.toUTF8) :
    (∀ page ∈ pages, t'.read (pathOf directory extension page) = .ok page.content.toUTF8) ↔
      Set.InjOn pathNames {name | name ∈ pages.map (·.objectId)} := by
  constructor
  · intro hread name hname name' hname' hsame
    obtain ⟨page, hpage, rfl⟩ := List.mem_map.mp hname
    obtain ⟨page', hpage', rfl⟩ := List.mem_map.mp hname'
    obtain ⟨last, hlast₁, hread₁⟩ := hlast page hpage
    obtain ⟨last', hlast₂, hread₂⟩ := hlast page' hpage'
    have hlasts : last = last' := by
      unfold lastNamed? at hlast₁ hlast₂
      rw [hsame, hlast₂] at hlast₁
      exact (Option.some.inj hlast₁).symm
    rw [hread page hpage, Except.ok.injEq] at hread₁
    rw [hread page' hpage', Except.ok.injEq, ← hlasts, ← hread₁] at hread₂
    exact hindex.objectId_eq_of_content_eq hpage hpage' (String.toByteArray_inj.mp hread₂).symm
  · intro hinj page hpage
    obtain ⟨last, hlastNamed, hread⟩ := hlast page hpage
    obtain ⟨hmem, hnames⟩ := mem_of_lastNamed? hlastNamed
    have hsame : last.objectId = page.objectId :=
      hinj (List.mem_map_of_mem hmem) (List.mem_map_of_mem hpage) hnames
    rw [hread, hindex.eq_of_objectId_eq hmem hpage hsame]

theorem isPlaced_pathOf (hpage : IsFullName page.objectId) (hextension : '/' ∉ extension.toList)
    (directory : String) : IsPlaced directory (pathOf directory extension page) := by
  obtain ⟨front, last, _, hleads, hfront⟩ := hpage.leads_pagePath hextension isName_id directory
  refine ⟨DeclarationIndex.id :: front, _, hleads, List.forall_mem_cons.mpr ⟨?_, hfront⟩, by simp⟩
  decide

theorem isPlaced_links (hdirectory : directory ≠ "") :
    IsPlaced directory (Path.join directory "links.json") :=
  ⟨[], "links.json", Path.leads_join isName_links hdirectory, nofun, by decide⟩

/-- Pages are written where their directories and files are told apart. -/
theorem IsSite.exists_write (h : IsSite t directory l)
    (ho : o.pages = [(DeclarationIndex.id, pages)])
    (hfull : ∀ page ∈ pages, IsFullName page.objectId) (hextension : '/' ∉ extension.toList)
    (hfits : ∀ page ∈ pages, FileTree.Fits (pathOf directory extension page))
    (hlinks : FileTree.Fits (Path.join directory "links.json")) :
    ∃ paths t', o.write directory extension t = (.ok paths, t') ∧ IsSite t' directory l := by
  have hdirectory : directory ≠ "" :=
    FileTree.ne_empty_of_checkPath (FileTree.checkPath_of_stat h.root)
  have hfiles : ∀ file ∈ o.outputFiles directory extension,
      IsPlaced directory file.1 ∧ FileTree.Fits file.1 := by
    rw [outputFiles_eq ho, List.forall_mem_append, List.forall_mem_map, List.forall_mem_singleton]
    dsimp only
    refine ⟨fun page hpage => ⟨?_, ?_⟩, ?_, ?_⟩
    · exact isPlaced_pathOf (hfull page hpage) hextension directory
    · exact hfits page hpage
    · exact isPlaced_links hdirectory
    · exact hlinks
  obtain ⟨t', hwrite, hsite'⟩ := h.writeFiles (fun file hfile => (hfiles file hfile).1)
    fun file hfile => (hfiles file hfile).2
  exact ⟨_, t', write_eq_ok.mpr ⟨hwrite, rfl⟩, hsite'⟩

/-- The pages of a project are an index of what its files declare. Two of them are written to one
place if the same names lead to them, and then the last one is left there; so all are kept if and
only if no two have the same names. They can be written, again and again, to every directory that
holds nothing but such documentation, as long as the paths are short enough. -/
theorem write_keeps_pages_iff_injOn (hr : Registry.empty.addBundled ignoredClasses = (r, none))
    (hgenerate : generate r provider = .ok o) (hextension : '/' ∉ extension.toList)
    (directory : String) :
    let pages := DeclarationIndex.pages (provider.sourceFiles r)
    let links := Path.join directory "links.json"
    DeclarationIndex.Indexes (provider.sourceFiles r) pages ∧
      (∀ workingDirectory, ∀ page ∈ pages, ∀ page' ∈ pages,
        FileTree.placeOf workingDirectory (pathOf directory extension page) =
            FileTree.placeOf workingDirectory (pathOf directory extension page') ↔
          pathNames page.objectId = pathNames page'.objectId) ∧
      (∀ t paths t', o.write directory extension t = (.ok paths, t') →
        paths = pages.map (pathOf directory extension) ++ [links] ∧
        (∀ page ∈ pages, ∃ last, lastNamed? pages page.objectId = some last ∧
          t'.read (pathOf directory extension page) = .ok last.content.toUTF8) ∧
        ((∀ page ∈ pages,
            t'.read (pathOf directory extension page) = .ok page.content.toUTF8) ↔
          Set.InjOn pathNames {name | name ∈ pages.map (·.objectId)})) ∧
      ∀ t l, IsSite t directory l →
        (∀ page ∈ pages, FileTree.Fits (pathOf directory extension page)) → FileTree.Fits links →
        ∃ paths t', o.write directory extension t = (.ok paths, t') ∧ IsSite t' directory l := by
  intro pages links
  have ho : o.pages = [(DeclarationIndex.id, pages)] := pages_of_generate hr hgenerate
  have hparsed : ∀ file ∈ provider.sourceFiles r, file.IsParsed := fun file => isParsed_of_mem hr
  have hindex : DeclarationIndex.Indexes (provider.sourceFiles r) pages :=
    DeclarationIndex.indexes_pages hparsed
  clear_value pages
  have hfull : ∀ page ∈ pages, IsFullName page.objectId := fun page => hindex.isFullName hparsed
  refine ⟨hindex, ?_, ?_, ?_⟩
  · intro workingDirectory page hpage page' hpage'
    unfold pathOf
    exact placeOf_pagePath_eq_iff (hfull page hpage) (hfull page' hpage') hextension isName_id
      directory workingDirectory
  · intro t paths t' hwrite
    obtain ⟨hfiles, hpaths⟩ := write_eq_ok.mp hwrite
    have hlast : ∀ page ∈ pages, _ := fun page => exists_lastNamed? ho hfull hextension hfiles
    refine ⟨?_, hlast, forall_read_iff_injOn hindex hlast⟩
    rw [hpaths, outputFiles_eq ho, List.map_append, List.map_map, Function.comp_def,
      List.map_singleton]
  · intro t l hsite hfits hlinks
    exact hsite.exists_write ho hfull hextension hfits hlinks

/-- A provider of one file. -/
def ofText (text : String) : Provider :=
  (MemoryFiles.ofFiles [("a.php", text.toUTF8)]).provider

/-- The page of one declaration in this file. -/
def onePage (name kind : String) : Page :=
  ⟨name, (Json.arr [.obj [("name", .str name), ("kind", .str kind), ("fileName", .str "a.php"),
    ("lineNumber", .nat 1)]]).pretty 0⟩

private theorem isSite_newDirectory : IsSite (.ofDirectory ["out"] 0) "/out" ["out"] :=
  isSite_of_empty (FileTree.stat_eq_ok.mpr ⟨by decide +kernel, rfl⟩)
    fun names => FileTree.node?_ofDirectory_append ["out"] 0

/-- A class and a function of one namespace have pages of their own. -/
theorem write_keeps_pages_iff_injOn_class_and_function :
    ∃ o t', generate (Registry.empty.addBundled []).1
        (ofText "<?php namespace A; class B { } function f() { }") = .ok o ∧
      o.write "/out" "json" (.ofDirectory ["out"] 0) =
        (.ok ["/out/php-doc-declarations/A/B.json", "/out/php-doc-declarations/A/f.json",
          "/out/links.json"], t') ∧
      t'.read "/out/php-doc-declarations/A/B.json" =
        .ok (onePage "A\\B" "class").content.toUTF8 ∧
      t'.read "/out/php-doc-declarations/A/f.json" =
        .ok (onePage "A\\f" "function").content.toUTF8 := by
  have hpages : DeclarationIndex.pages (Provider.sourceFiles (Registry.empty.addBundled []).1
      (ofText "<?php namespace A; class B { } function f() { }")) =
      [onePage "A\\B" "class", onePage "A\\f" "function"] := by
    decide +kernel
  obtain ⟨o, ho⟩ : ∃ o, generate (Registry.empty.addBundled []).1
      (ofText "<?php namespace A; class B { } function f() { }") = .ok o := ⟨_, rfl⟩
  have hr : Registry.empty.addBundled [] = ((Registry.empty.addBundled []).1, none) := rfl
  have hextension : '/' ∉ "json".toList := by decide
  obtain ⟨_, _, hruns, hwrites⟩ := write_keeps_pages_iff_injOn hr ho hextension "/out"
  rw [hpages] at hruns hwrites
  obtain ⟨paths, t', hwrite, _⟩ := hwrites _ _ isSite_newDirectory (by decide +kernel)
    (by decide +kernel)
  obtain ⟨hpaths, _, hkept⟩ := hruns _ _ _ hwrite
  have hinj : ∀ name ∈ ["A\\B", "A\\f"], ∀ name' ∈ ["A\\B", "A\\f"],
      pathNames name = pathNames name' → name = name' := by
    decide +kernel
  have hread := hkept.mpr fun name hname name' hname' => hinj name hname name' hname'
  have hB : pathOf "/out" "json" (onePage "A\\B" "class") =
      "/out/php-doc-declarations/A/B.json" := by decide +kernel
  have hf : pathOf "/out" "json" (onePage "A\\f" "function") =
      "/out/php-doc-declarations/A/f.json" := by decide +kernel
  have hlinks : Path.join "/out" "links.json" = "/out/links.json" := by decide +kernel
  rw [List.map_cons, List.map_singleton, hB, hf, hlinks] at hpaths
  rw [List.forall_mem_cons, List.forall_mem_singleton, hB, hf] at hread
  rw [hpaths] at hwrite
  exact ⟨o, t', ho, hwrite, hread⟩

/-- Two classes whose names differ in letters that a path cannot hold have one file. -/
theorem not_write_keeps_pages : ¬ ∀ (provider : Provider) (o : DocumentationOutput)
    (t t' : FileTree) (paths : List String),
      generate (Registry.empty.addBundled []).1 provider = .ok o →
      o.write "/out" "json" t = (.ok paths, t') →
      ∀ page ∈ DeclarationIndex.pages (provider.sourceFiles (Registry.empty.addBundled []).1),
        t'.read (pathOf "/out" "json" page) = .ok page.content.toUTF8 := by
  intro hkeeps
  have hpages : DeclarationIndex.pages (Provider.sourceFiles (Registry.empty.addBundled []).1
      (ofText "<?php class Ä {} class Ö {}")) = [onePage "Ä" "class", onePage "Ö" "class"] := by
    decide +kernel
  obtain ⟨o, ho⟩ : ∃ o, generate (Registry.empty.addBundled []).1
      (ofText "<?php class Ä {} class Ö {}") = .ok o := ⟨_, rfl⟩
  have hr : Registry.empty.addBundled [] = ((Registry.empty.addBundled []).1, none) := rfl
  have hpagesOf := pages_of_generate hr ho
  have hextension : '/' ∉ "json".toList := by decide
  have hparsed : ∀ file ∈ Provider.sourceFiles (Registry.empty.addBundled []).1
      (ofText "<?php class Ä {} class Ö {}"), file.IsParsed := fun file => isParsed_of_mem hr
  have hindex := DeclarationIndex.indexes_pages hparsed
  rw [hpages] at hpagesOf hindex
  have hfull : ∀ page ∈ [onePage "Ä" "class", onePage "Ö" "class"], IsFullName page.objectId :=
    fun page => hindex.isFullName hparsed
  obtain ⟨paths, t', hwrite, _⟩ := isSite_newDirectory.exists_write hpagesOf hfull hextension
    (by decide +kernel) (by decide +kernel)
  have hread := hkeeps _ o _ t' paths ho hwrite
  rw [hpages] at hread
  have hlast : ∀ page ∈ [onePage "Ä" "class", onePage "Ö" "class"], _ := fun page =>
    exists_lastNamed? hpagesOf hfull hextension (write_eq_ok.mp hwrite).1
  have hinj := (forall_read_iff_injOn hindex hlast).mp hread
  have hsame : pathNames "Ä" = pathNames "Ö" := by decide +kernel
  exact absurd (hinj (by simp [onePage]) (by simp [onePage]) hsame) (by decide)

end DocumentationOutput

end PhpLint
