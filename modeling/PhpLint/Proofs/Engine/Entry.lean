import PhpLint.Engine.Cache
import PhpLint.Proofs.Json.RoundTrip
import PhpLint.Proofs.Model.Attributes

/-! An analysis is read again as it was kept, if its numbers fit into the words they are kept in. -/
namespace PhpLint

open Json

theorem Severity.ofName?_name (s : Severity) : ofName? s.name = some s := by
  cases s <;> decide

theorem Class.Kind.ofName?_name (k : Class.Kind) : ofName? k.name = some k := by
  cases k <;> decide

private theorem list?_strings (ss : List String) :
    (Json.strings ss).raw.list? Raw.str? = some ss :=
  list?_raw fun s _ => str?_raw s

private theorem option?_str (o : Option String) : (Json.opt .str o).raw.option? Raw.str? = some o :=
  option?_raw (fun s _ => str?_raw s) fun s _ => by simp [raw]

private theorem arePlain_map {α : Type} {encode : α → Json} {l : List α}
    (h : ∀ a ∈ l, (encode a).isPlain) : arePlain (l.map encode) := by
  induction l with
  | nil => rfl
  | cons a l ih =>
    rw [List.map_cons, arePlain, Bool.and_eq_true]
    exact ⟨h a List.mem_cons_self, ih fun b hb => h b (List.mem_cons_of_mem _ hb)⟩

private theorem isPlain_strings (ss : List String) : (Json.strings ss).isPlain :=
  arePlain_map fun _ _ => rfl

private theorem isPlain_opt {α : Type} {encode : α → Json} {o : Option α}
    (h : ∀ a ∈ o, (encode a).isPlain) : (Json.opt encode o).isPlain := by
  cases o with
  | none => rfl
  | some a => exact h a rfl

private theorem isPlain_nat (n : Nat) : (Json.nat n).isPlain := by
  rw [Json.nat, isPlain, decide_eq_true_eq]
  exact Int.natCast_nonneg n

/-! ### Declarations -/

/-- A line takes 32 bits and a count 64. -/
structure MethodDeclaration.FitsWords (m : MethodDeclaration) : Prop where
  line : m.line < 2 ^ 32
  parameters : m.parameterCount < 2 ^ 64
  required : m.requiredParameterCount < 2 ^ 64

structure FunctionDeclaration.FitsWords (f : FunctionDeclaration) : Prop where
  line : f.line < 2 ^ 32
  parameters : f.parameterCount < 2 ^ 64
  required : f.requiredParameterCount < 2 ^ 64

structure ClassDeclaration.FitsWords (c : ClassDeclaration) : Prop where
  line : c.line < 2 ^ 32
  methods : ∀ m ∈ c.methods, m.FitsWords

structure FileDeclarations.FitsWords (d : FileDeclarations) : Prop where
  classes : ∀ c ∈ d.classes, c.FitsWords
  functions : ∀ f ∈ d.functions, f.FitsWords

theorem MethodDeclaration.ofRaw?_toJson {m : MethodDeclaration} (h : m.FitsWords) :
    ofRaw? m.toJson.raw = some m := by
  have hnodup : ["name", "line_number", "attributes", "parameter_count",
    "required_parameter_count", "calls_parent_constructor"].Nodup := by decide
  unfold ofRaw? toJson
  refine bind_of_eq_some (record?_raw rfl hnodup) ?_
  refine read_field hnodup 0 rfl rfl (str?_raw _) ?_
  refine read_field hnodup 1 rfl rfl (nat?_raw h.line) ?_
  refine read_field hnodup 2 rfl rfl (str?_raw _) ?_
  refine bind_of_eq_some (Attributes.ofText?_text _) ?_
  refine read_field hnodup 3 rfl rfl (nat?_raw h.parameters) ?_
  refine read_field hnodup 4 rfl rfl (nat?_raw h.required) ?_
  exact read_field hnodup 5 rfl rfl (bool?_raw _) rfl

theorem FunctionDeclaration.ofRaw?_toJson {f : FunctionDeclaration} (h : f.FitsWords) :
    ofRaw? f.toJson.raw = some f := by
  have hnodup : ["name", "file_name", "line_number", "parameter_count",
    "required_parameter_count"].Nodup := by decide
  unfold ofRaw? toJson
  refine bind_of_eq_some (record?_raw rfl hnodup) ?_
  refine read_field hnodup 0 rfl rfl (str?_raw _) ?_
  refine read_field hnodup 1 rfl rfl (str?_raw _) ?_
  refine read_field hnodup 2 rfl rfl (nat?_raw h.line) ?_
  refine read_field hnodup 3 rfl rfl (nat?_raw h.parameters) ?_
  exact read_field hnodup 4 rfl rfl (nat?_raw h.required) rfl

theorem ClassDeclaration.ofRaw?_toJson {c : ClassDeclaration} (h : c.FitsWords) :
    ofRaw? c.toJson.raw = some c := by
  have hnodup : ["name", "kind", "file_name", "line_number", "extends", "implements", "uses",
    "attributes", "methods"].Nodup := by decide
  have hmethods := list?_raw fun m hm => MethodDeclaration.ofRaw?_toJson (h.methods m hm)
  unfold ofRaw? toJson
  refine bind_of_eq_some (record?_raw rfl hnodup) ?_
  refine read_field hnodup 0 rfl rfl (str?_raw _) ?_
  refine read_field hnodup 1 rfl rfl (word?_raw _) ?_
  refine bind_of_eq_some (Class.Kind.ofName?_name _) ?_
  refine read_field hnodup 2 rfl rfl (str?_raw _) ?_
  refine read_field hnodup 3 rfl rfl (nat?_raw h.line) ?_
  refine read_field hnodup 4 rfl rfl (list?_strings _) ?_
  refine read_field hnodup 5 rfl rfl (list?_strings _) ?_
  refine read_field hnodup 6 rfl rfl (list?_strings _) ?_
  refine read_field hnodup 7 rfl rfl (str?_raw _) ?_
  refine bind_of_eq_some (Attributes.ofText?_text _) ?_
  exact read_field hnodup 8 rfl rfl hmethods rfl

theorem FileDeclarations.ofRaw?_toJson {d : FileDeclarations} (h : d.FitsWords) :
    ofRaw? d.toJson.raw = some d := by
  have hnodup : ["file_name", "classes", "functions"].Nodup := by decide
  have hclasses := list?_raw fun c hc => ClassDeclaration.ofRaw?_toJson (h.classes c hc)
  have hfunctions := list?_raw fun f hf => FunctionDeclaration.ofRaw?_toJson (h.functions f hf)
  unfold ofRaw? toJson
  refine bind_of_eq_some (record?_raw rfl hnodup) ?_
  refine read_field hnodup 0 rfl rfl (str?_raw _) ?_
  refine read_field hnodup 1 rfl rfl hclasses ?_
  exact read_field hnodup 2 rfl rfl hfunctions rfl

/-! ### Analyses -/

structure FileAnalysis.FitsWords (a : FileAnalysis) : Prop where
  defects : ∀ d ∈ a.defects, d.line < 2 ^ 32
  declarations : ∀ d ∈ a.declarations, d.FitsWords

theorem Defect.ofRaw?_toJson {d : Defect} (h : d.line < 2 ^ 32) : ofRaw? d.toJson.raw = some d := by
  have hnodup : ["token_text", "error_code", "severity", "message", "file_name", "line_number",
    "in_class", "in_method"].Nodup := by decide
  unfold ofRaw? toJson
  refine bind_of_eq_some (record?_raw rfl hnodup) ?_
  refine read_field hnodup 0 rfl rfl (str?_raw _) ?_
  refine read_field hnodup 1 rfl rfl (str?_raw _) ?_
  refine read_field hnodup 2 rfl rfl (word?_raw _) ?_
  refine bind_of_eq_some (Severity.ofName?_name _) ?_
  refine read_field hnodup 3 rfl rfl (str?_raw _) ?_
  refine read_field hnodup 4 rfl rfl (str?_raw _) ?_
  refine read_field hnodup 5 rfl rfl (nat?_raw h) ?_
  refine read_optional hnodup 6 rfl rfl (option?_str _) ?_
  exact read_optional hnodup 7 rfl rfl (option?_str _) rfl

namespace CacheEntry

theorem ofRaw?_toJson {e : CacheEntry} (h : e.analysis.FitsWords) :
    ofRaw? e.toJson.raw = some e := by
  have hnodup : ["file_name", "defects", "declarations"].Nodup := by decide
  have hdefects := list?_raw fun d hd => Defect.ofRaw?_toJson (h.defects d hd)
  have hdeclarations := option?_raw
    (fun d hd => FileDeclarations.ofRaw?_toJson (h.declarations d hd))
    fun d _ => by simp [FileDeclarations.toJson, raw]
  unfold ofRaw? toJson
  refine bind_of_eq_some (record?_raw rfl hnodup) ?_
  refine read_field hnodup 0 rfl rfl (str?_raw _) ?_
  refine read_field hnodup 1 rfl rfl hdefects ?_
  exact read_optional hnodup 2 rfl rfl hdeclarations rfl

theorem isPlain_toJson (e : CacheEntry) : e.toJson.isPlain := by
  have hmethod (m : MethodDeclaration) : m.toJson.isPlain := by
    simp [MethodDeclaration.toJson, isPlain, arePlainFields, isPlain_nat]
  have hclass (c : ClassDeclaration) : c.toJson.isPlain := by
    simp [ClassDeclaration.toJson, isPlain, arePlainFields, isPlain_nat, isPlain_strings,
      arePlain_map fun m _ => hmethod m]
  have hfunction (f : FunctionDeclaration) : f.toJson.isPlain := by
    simp [FunctionDeclaration.toJson, isPlain, arePlainFields, isPlain_nat]
  have hfile (d : FileDeclarations) : d.toJson.isPlain := by
    simp [FileDeclarations.toJson, isPlain, arePlainFields, arePlain_map fun c _ => hclass c,
      arePlain_map fun f _ => hfunction f]
  have hstr (o : Option String) : (Json.opt .str o).isPlain := isPlain_opt fun _ _ => rfl
  have hdefect (d : Defect) : d.toJson.isPlain := by
    simp [Defect.toJson, isPlain, arePlainFields, isPlain_nat, hstr]
  simp [toJson, isPlain, arePlainFields, arePlain_map fun d _ => hdefect d,
    isPlain_opt fun d _ => hfile d]

/-- An entry is read again as it was kept. -/
theorem ofBytes?_toBytes {e : CacheEntry} (h : e.analysis.FitsWords) :
    ofBytes? e.toBytes = some e := by
  unfold ofBytes? toBytes
  rw [read?_compact e.isPlain_toJson, Option.bind_some]
  exact ofRaw?_toJson h

end CacheEntry

/-! ### What is analysed -/

/-- Lines take 32 bits and lengths of lists 64. -/
structure SourceFile.FitsWords (file : SourceFile) : Prop where
  lines : ∀ t ∈ file.tokens, t.line < 2 ^ 32
  parameters : ∀ f ∈ file.functions, f.parameters.length < 2 ^ 64

namespace SourceFile.FitsWords

variable {file : SourceFile}

theorem lineAt_lt (h : file.FitsWords) (i : Nat) : file.lineAt i < 2 ^ 32 := by
  unfold lineAt
  cases ht : file.tokens[i]? with
  | none => exact Nat.two_pow_pos 32
  | some t => exact h.lines t (Array.mem_of_getElem? ht)

private theorem required_le (f : Function) : f.requiredParameterCount ≤ f.parameters.length :=
  List.length_filter_le _ _

theorem declarations_fitsWords (h : file.FitsWords) : file.declarations.FitsWords := by
  constructor
  · intro c hc
    obtain ⟨c, _, rfl⟩ := List.mem_map.mp hc
    refine ⟨h.lineAt_lt _, ?_⟩
    intro m hm
    obtain ⟨f, hf, hm⟩ := List.mem_filterMap.mp hm
    obtain ⟨i, _, hi⟩ := List.mem_filterMap.mp hf
    have hlength := h.parameters f (Array.mem_of_getElem? hi)
    obtain ⟨name, _, rfl⟩ := Option.map_eq_some_iff.mp hm
    exact ⟨h.lineAt_lt _, hlength, (required_le f).trans_lt hlength⟩
  · intro d hd
    obtain ⟨f, hf, hd⟩ := List.mem_filterMap.mp hd
    have hlength := h.parameters f (Array.mem_toList_iff.mp (List.mem_filter.mp hf).1)
    obtain ⟨name, _, rfl⟩ := Option.map_eq_some_iff.mp hd
    exact ⟨h.lineAt_lt _, hlength, (required_le f).trans_lt hlength⟩

end SourceFile.FitsWords

namespace Registry

/-- What the parser answers on a file fits into words. -/
structure FitsWords (r : Registry) (fileName : String) (content : ByteArray) : Prop where
  file : ∀ file, r.parse fileName content = .ok file → file.FitsWords
  failure : ∀ failure, r.parse fileName content = .error failure → failure.line < 2 ^ 32

variable {r : Registry}

theorem fileDefects_line_lt {file : SourceFile} (h : file.FitsWords) :
    ∀ d ∈ r.fileDefects file, d.line < 2 ^ 32 := by
  intro d hd
  obtain ⟨⟨id, lint⟩, _, hd⟩ := List.mem_flatMap.mp hd
  change d ∈ lint.segment id file at hd
  unfold FileLint.segment at hd
  split at hd
  · obtain ⟨finding, _, rfl⟩ := List.mem_map.mp hd
    unfold FileLint.defect
    split
    · exact h.lineAt_lt _
    · exact Nat.two_pow_pos 32
  · rw [List.mem_singleton.mp hd]
    exact Nat.two_pow_pos 32

theorem FitsWords.analyze_fitsWords {fileName : String} {content : ByteArray}
    (h : r.FitsWords fileName content) (collect : Bool) :
    (r.analyze collect fileName content).FitsWords := by
  unfold analyze
  cases hparse : r.parse fileName content with
  | ok file =>
    have hfile := h.file file hparse
    refine ⟨fileDefects_line_lt hfile, ?_⟩
    intro d hd
    cases collect
    · cases hd
    · cases hd
      exact hfile.declarations_fitsWords
  | error failure =>
    refine ⟨?_, ?_⟩
    · intro d hd
      rw [List.mem_singleton.mp hd]
      exact h.failure failure hparse
    · intro d hd
      cases collect
      · cases hd
      · cases hd
        constructor
        · intro c hc
          cases hc
        · intro f hf
          cases hf

end Registry

end PhpLint
