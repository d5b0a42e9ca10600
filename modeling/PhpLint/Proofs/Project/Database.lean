import PhpLint.Proofs.Dict
import PhpLint.Rule.MissingClass
import PhpLint.Rule.ParentConstructor

/-!
A project database answers by the history of the declarations that were added to it: the first one
of a name counts, and every later one is a defect.
-/
namespace PhpLint

/-- Names that are the same up to case and to separators in front. -/
def sameName (a b : String) : Bool :=
  Text.sameFold (Text.dropLeading '\\' a) (Text.dropLeading '\\' b)

/-- A name without a separator in front. -/
def IsBare (name : String) : Prop :=
  name.toList.head? ≠ some '\\'

instance : DecidablePred IsBare :=
  fun name => inferInstanceAs (Decidable (name.toList.head? ≠ some '\\'))

theorem dropLeading_of_isBare {name : String} (h : IsBare name) :
    Text.dropLeading '\\' name = name := by
  unfold Text.dropLeading
  cases hs : name.toList with
  | nil => rw [← String.ofList_toList (s := name), hs]; rfl
  | cons c r =>
    have hc : ¬ c = '\\' := by
      rintro rfl
      exact h (by rw [hs]; rfl)
    rw [List.dropWhile_cons_of_neg (by simpa using hc), ← hs, String.ofList_toList]

/-- All names that a file declares are bare. -/
structure FileDeclarations.IsBare (d : FileDeclarations) : Prop where
  classes : ∀ c ∈ d.classes, PhpLint.IsBare c.name
  functions : ∀ f ∈ d.functions, PhpLint.IsBare f.name

namespace ProjectDatabase

/-- Adds files one after the other. Answers the defects of all of them. -/
def addFiles (db : ProjectDatabase) : List FileDeclarations → ProjectDatabase × List Defect
  | [] => (db, [])
  | d :: ds =>
    let (db, found) := db.addFile d
    let (db, rest) := db.addFiles ds
    (db, found ++ rest)

/-- The later declarations of a name, each with the first one; `earlier` are those in front. -/
def repeated (earlier : List ClassDeclaration) :
    List ClassDeclaration → List (ClassDeclaration × ClassDeclaration)
  | [] => []
  | c :: cs =>
    let first := earlier.find? fun e => Text.sameFold e.name c.name
    (first.map (·, c)).toList ++ repeated (earlier ++ [c]) cs

/-- A defect about a class that an earlier one stands in front of. -/
structure Reports (d : Defect) (declared : ClassDeclaration × ClassDeclaration) : Prop where
  file : d.fileName = "(project)"
  line : d.line = 0
  text : d.tokenText = Defect.escapeText declared.2.name
  code : d.code = "xr003"
  severity : d.severity = .error
  message : d.message = s!"{kindTitle declared.2.kind} {declared.2.name} is declared in " ++
    s!"{declared.1.fileName}:{declared.1.line} and {declared.2.fileName}:{declared.2.line}"
  context : d.inClass = none ∧ d.inMethod = none

/-- Two databases in which classes are found alike, and with them all defects of the project. -/
structure AnswersAlike (db db' : ProjectDatabase) : Prop where
  class? : ∀ name, db.class? name = db'.class? name
  ancestors : ∀ name, db.ancestors name = db'.ancestors name
  missing : ∀ ignored, (Rule.MissingClass.plugin ignored).projectLint.map (·.defects db) =
    (Rule.MissingClass.plugin ignored).projectLint.map (·.defects db')
  constructors : Rule.ParentConstructor.plugin.projectLint.map (·.defects db) =
    Rule.ParentConstructor.plugin.projectLint.map (·.defects db')

/-- The key under which a declaration is stored. -/
abbrev classKey (c : ClassDeclaration) : String :=
  Text.fold c.name

abbrev functionKey (f : FunctionDeclaration) : String :=
  Text.fold f.name

/-- What a database knows of the declarations that were added to it. -/
structure Recalls (db : ProjectDatabase) (classes : List ClassDeclaration)
    (functions : List FunctionDeclaration) : Prop where
  sorted : Dict.Sorted db.classes
  class? : Dict.IsIndex classKey db.classes classes
  function? : Dict.IsIndex functionKey db.functions functions

variable {db : ProjectDatabase} {classes : List ClassDeclaration}
  {functions : List FunctionDeclaration}

theorem sameName_of_isBare {declared : String} (h : IsBare declared) (name : String) :
    sameName declared name = (Text.fold declared == key name) := by
  unfold sameName key Text.sameFold
  rw [dropLeading_of_isBare h]

/-! ### Declarations one by one -/

theorem addClass_classes (c : ClassDeclaration) : (db.addClass c).1 =
    { db with classes := db.classes.insertNew (classKey c) c } := by
  unfold addClass Dict.insertNew Dict.contains
  dsimp only
  cases db.classes.get? (classKey c) <;> rfl

theorem Recalls.duplicates (h : db.Recalls classes functions) (c : ClassDeclaration) :
    (db.addClass c).2 = (((classes.find? fun e => Text.sameFold e.name c.name).map
      (·, c)).toList).map fun pair => duplicate pair.1 pair.2 := by
  have hfirst := h.class? (classKey c)
  unfold addClass Text.sameFold
  dsimp only
  rw [← hfirst]
  cases db.classes.get? (classKey c) <;> rfl

theorem Recalls.addClass (h : db.Recalls classes functions) (c : ClassDeclaration) :
    (db.addClass c).1.Recalls (classes ++ [c]) functions := by
  rw [addClass_classes]
  exact ⟨h.sorted.insertNew _ _, h.class?.insertNew c, h.function?⟩

theorem Recalls.addFunction (h : db.Recalls classes functions) (f : FunctionDeclaration) :
    (db.addFunction f).Recalls classes (functions ++ [f]) := by
  have hadd : db.addFunction f =
      { db with functions := db.functions.insertNew (functionKey f) f } := by
    unfold ProjectDatabase.addFunction Dict.insertNew
    dsimp only
    split <;> rfl
  rw [hadd]
  exact ⟨h.sorted, h.class?, h.function?.insertNew f⟩

/-! ### Files one by one -/

theorem Recalls.addClasses (h : db.Recalls classes functions) (more : List ClassDeclaration) :
    (db.addClasses more).1.Recalls (classes ++ more) functions ∧
      (db.addClasses more).2 = (repeated classes more).map fun pair => duplicate pair.1 pair.2 := by
  induction more generalizing db classes with
  | nil => exact ⟨by rwa [List.append_nil], rfl⟩
  | cons c more ih =>
    obtain ⟨hrecalls, hdefects⟩ := ih (h.addClass c)
    rw [List.append_assoc] at hrecalls
    refine ⟨hrecalls, ?_⟩
    rw [repeated, List.map_append, ← h.duplicates, ← hdefects]
    rfl

theorem addClasses_files (db : ProjectDatabase) (classes : List ClassDeclaration) :
    (db.addClasses classes).1.files = db.files := by
  induction classes generalizing db with
  | nil => rfl
  | cons c classes ih =>
    change ((db.addClass c).1.addClasses classes).1.files = db.files
    rw [ih, addClass_classes]

theorem Recalls.foldl_addFunction (h : db.Recalls classes functions)
    (more : List FunctionDeclaration) :
    (more.foldl ProjectDatabase.addFunction db).Recalls classes (functions ++ more) := by
  induction more generalizing db functions with
  | nil => rwa [List.append_nil]
  | cons f more ih =>
    have := ih (h.addFunction f)
    rwa [List.append_assoc] at this

theorem foldl_addFunction_files (db : ProjectDatabase) (functions : List FunctionDeclaration) :
    (functions.foldl addFunction db).files = db.files := by
  induction functions generalizing db with
  | nil => rfl
  | cons f functions ih =>
    rw [List.foldl_cons, ih]
    unfold addFunction
    dsimp only
    split <;> rfl

theorem repeated_append (earlier first second : List ClassDeclaration) :
    repeated earlier (first ++ second) =
      repeated earlier first ++ repeated (earlier ++ first) second := by
  induction first generalizing earlier with
  | nil => rw [List.append_nil]; rfl
  | cons c first ih =>
    rw [List.cons_append, repeated, repeated, ih, List.append_assoc, List.append_assoc]
    rfl

theorem Recalls.addFile (h : db.Recalls classes functions) (d : FileDeclarations) :
    (db.addFile d).1.Recalls (classes ++ d.classes) (functions ++ d.functions) ∧
      (db.addFile d).2 = (repeated classes d.classes).map fun pair => duplicate pair.1 pair.2 := by
  have hnamed : Recalls { db with files := db.files ++ [d.fileName] } classes functions :=
    ⟨h.sorted, h.class?, h.function?⟩
  obtain ⟨hrecalls, hdefects⟩ := hnamed.addClasses d.classes
  exact ⟨hrecalls.foldl_addFunction d.functions, hdefects⟩

theorem addFile_files (db : ProjectDatabase) (d : FileDeclarations) :
    (db.addFile d).1.files = db.files ++ [d.fileName] := by
  unfold addFile
  rw [foldl_addFunction_files, addClasses_files]

theorem Recalls.addFiles (h : db.Recalls classes functions) (files : List FileDeclarations) :
    (db.addFiles files).1.Recalls (classes ++ files.flatMap (·.classes))
        (functions ++ files.flatMap (·.functions)) ∧
      (db.addFiles files).2 = (repeated classes (files.flatMap (·.classes))).map fun pair =>
        duplicate pair.1 pair.2 := by
  induction files generalizing db classes functions with
  | nil => exact ⟨by rwa [List.flatMap_nil, List.flatMap_nil, List.append_nil, List.append_nil], rfl⟩
  | cons d files ih =>
    obtain ⟨hfile, hfound⟩ := h.addFile d
    obtain ⟨hrecalls, hdefects⟩ := ih hfile
    rw [List.append_assoc, List.append_assoc] at hrecalls
    refine ⟨hrecalls, ?_⟩
    rw [List.flatMap_cons, repeated_append, List.map_append, ← hdefects, ← hfound]
    rfl

theorem addFiles_files (db : ProjectDatabase) (files : List FileDeclarations) :
    (db.addFiles files).1.files = db.files ++ files.map (·.fileName) := by
  induction files generalizing db with
  | nil => exact (List.append_nil _).symm
  | cons d files ih =>
    change ((db.addFile d).1.addFiles files).1.files = _
    rw [ih, addFile_files, List.append_assoc]
    rfl

theorem recalls_empty : empty.Recalls [] [] :=
  ⟨Dict.sorted_nil, fun _ => rfl, fun _ => rfl⟩

/-! ### The order of files -/

/-- The first bearer of a name is the only one, wherever it stands. -/
theorem find?_perm {α : Type} {keyOf : α → String} {l l' : List α} (h : l.Perm l')
    (hnodup : (l.map keyOf).Nodup) (key : String) :
    (l.find? fun a => keyOf a == key) = l'.find? fun a => keyOf a == key := by
  have hiff {l : List α} (hnodup : (l.map keyOf).Nodup) (a : α) :
      (l.find? fun a => keyOf a == key) = some a ↔ a ∈ l ∧ keyOf a = key := by
    constructor
    · intro hfind
      exact ⟨List.mem_of_find?_eq_some hfind, by simpa using List.find?_some hfind⟩
    · rintro ⟨hmem, hkey⟩
      cases hfind : l.find? fun a => keyOf a == key with
      | none => simpa [hkey] using List.find?_eq_none.mp hfind a hmem
      | some b =>
        have hb : keyOf b = keyOf a := hkey ▸ by simpa using List.find?_some hfind
        rw [List.inj_on_of_nodup_map hnodup (List.mem_of_find?_eq_some hfind) hmem hb]
  ext a
  rw [hiff hnodup, hiff ((h.map keyOf).nodup_iff.mp hnodup), h.mem_iff]

theorem ancestorsFrom_congr {db' : ProjectDatabase} (h : ∀ name, db.class? name = db'.class? name)
    (seen : List String) (c : ClassDeclaration) (steps : Nat) :
    db.ancestorsFrom seen c steps = db'.ancestorsFrom seen c steps := by
  induction steps generalizing seen c with
  | zero => rfl
  | succ steps ih =>
    have hparent : db.parent? c = db'.parent? c := by
      unfold parent?
      rw [funext h]
    rw [ancestorsFrom, ancestorsFrom, hparent]
    cases db'.parent? c with
    | none => rfl
    | some parent => dsimp only; rw [ih]

/-- Classes, ancestors and both rules of the project need nothing but the classes. -/
theorem answersAlike_of_classes {db' : ProjectDatabase} (h : db.classes = db'.classes) :
    db.AnswersAlike db' := by
  have hclass (name : String) : db.class? name = db'.class? name := by
    unfold class?
    rw [h]
  have hancestors (name : String) : db.ancestors name = db'.ancestors name := by
    unfold ancestors
    rw [hclass, h]
    cases db'.class? name with
    | none => rfl
    | some c => exact ancestorsFrom_congr hclass [name] c _
  have hknown (ignored : List String) :
      Rule.MissingClass.isKnown ignored db = Rule.MissingClass.isKnown ignored db' := by
    funext name
    unfold Rule.MissingClass.isKnown
    rw [hclass]
  have hdefect : Rule.ParentConstructor.defect? db = Rule.ParentConstructor.defect? db' := by
    funext c
    unfold Rule.ParentConstructor.defect? Rule.ParentConstructor.ancestorToCall?
    rw [hancestors]
  refine ⟨hclass, hancestors, ?_, ?_⟩
  · intro ignored
    have hinClass :
        Rule.MissingClass.inClass ignored db = Rule.MissingClass.inClass ignored db' := by
      funext c
      unfold Rule.MissingClass.inClass
      rw [hknown]
    change some (Except.ok (db.classes.values.flatMap (Rule.MissingClass.inClass ignored db))) = _
    rw [hinClass, h]
    rfl
  · change some (Except.ok (db.classes.values.filterMap (Rule.ParentConstructor.defect? db))) = _
    rw [hdefect, h]
    rfl

theorem reports_duplicate (first second : ClassDeclaration) :
    Reports (duplicate first second) (first, second) := by
  refine ⟨rfl, rfl, rfl, rfl, rfl, ?_, rfl, rfl⟩
  unfold duplicate Defect.detached place
  simp [toString, String.append_assoc]

/--
A database finds the first declaration of a name, whatever its case and the separators in front,
and every later class of a name is one defect that names both. The order of the files makes no
difference to classes if no two have one name.
-/
theorem addFiles_firstDeclaration (files : List FileDeclarations) (hbare : ∀ d ∈ files, d.IsBare) :
    (∀ name, (empty.addFiles files).1.class? name =
      (files.flatMap (·.classes)).find? fun c => sameName c.name name) ∧
    (∀ name, (empty.addFiles files).1.function? name =
      (files.flatMap (·.functions)).find? fun f => sameName f.name name) ∧
    List.Forall₂ Reports (empty.addFiles files).2 (repeated [] (files.flatMap (·.classes))) ∧
    (empty.addFiles files).1.files = files.map (·.fileName) ∧
    ((files.flatMap (·.classes)).Pairwise (fun a b => ¬ Text.sameFold a.name b.name) →
      ∀ files', files.Perm files' →
        (empty.addFiles files).1.AnswersAlike (empty.addFiles files').1) := by
  obtain ⟨hrecalls, hdefects⟩ := recalls_empty.addFiles files
  rw [List.nil_append, List.nil_append] at hrecalls
  refine ⟨?_, ?_, ?_, ?_, ?_⟩
  · intro name
    refine (hrecalls.class? (key name)).trans (List.find?_congr fun c hc => ?_)
    obtain ⟨d, hd, hc⟩ := List.mem_flatMap.mp hc
    exact (sameName_of_isBare ((hbare d hd).classes c hc) name).symm
  · intro name
    refine (hrecalls.function? (key name)).trans (List.find?_congr fun f hf => ?_)
    obtain ⟨d, hd, hf⟩ := List.mem_flatMap.mp hf
    exact (sameName_of_isBare ((hbare d hd).functions f hf) name).symm
  · rw [hdefects, List.forall₂_map_left_iff, List.forall₂_same]
    exact fun pair _ => reports_duplicate pair.1 pair.2
  · rw [addFiles_files]
    rfl
  · intro hdistinct files' hperm
    obtain ⟨hrecalls', _⟩ := recalls_empty.addFiles files'
    rw [List.nil_append, List.nil_append] at hrecalls'
    have hnodup : ((files.flatMap (·.classes)).map classKey).Nodup :=
      List.pairwise_map.mpr (hdistinct.imp fun hne heq => hne (by simpa [Text.sameFold] using heq))
    refine answersAlike_of_classes (hrecalls.sorted.ext hrecalls'.sorted fun k => ?_)
    rw [hrecalls.class?, hrecalls'.class?]
    exact find?_perm (hperm.flatMap_right _) hnodup k

/-- A class that is declared in two files, in different cases. -/
theorem addFiles_firstDeclaration_other_case :
    let user (name fileName : String) : ClassDeclaration := { (default : ClassDeclaration) with
      name, fileName }
    let files : List FileDeclarations := [⟨"a.php", [user "App\\User" "a.php"], []⟩,
      ⟨"b.php", [user "app\\user" "b.php"], []⟩]
    (∀ d ∈ files, d.IsBare) ∧
      ((empty.addFiles files).1.class? "\\APP\\USER").map (·.fileName) = some "a.php" ∧
      (empty.addFiles files).2.length = 1 := by
  intro user files
  have hbare : ∀ d ∈ files, d.IsBare := by
    intro d hd
    have hd : d = ⟨"a.php", [user "App\\User" "a.php"], []⟩ ∨
        d = ⟨"b.php", [user "app\\user" "b.php"], []⟩ := by
      simpa [files] using hd
    rcases hd with rfl | rfl
    · exact ⟨fun c hc => by rw [List.mem_singleton.mp hc]; decide, nofun⟩
    · exact ⟨fun c hc => by rw [List.mem_singleton.mp hc]; decide, nofun⟩
  obtain ⟨hclass, _, hdefects, _, _⟩ := addFiles_firstDeclaration files hbare
  refine ⟨hbare, ?_, ?_⟩
  · rw [hclass]
    decide
  · rw [hdefects.length_eq]
    decide

end ProjectDatabase

end PhpLint
