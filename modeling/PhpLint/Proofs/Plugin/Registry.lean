import PhpLint.Plugin.Registry
import PhpLint.Proofs.Dict

/-!
What a registry holds after any calls. A call that fails changes nothing, and what is found is what
was registered by the calls since the last reset that did not fail.
-/
namespace PhpLint

namespace Dict

variable {α : Type}

theorem mem_keys (d : Dict α) (key : String) : key ∈ d.keys ↔ (d.get? key).isSome := by
  unfold keys get?
  induction d with
  | nil => simp
  | cons entry d ih =>
    rw [List.map_cons, List.mem_cons, ih, List.lookup_cons]
    by_cases h : key = entry.1
    · simp [h]
    · rw [beq_eq_false_iff_ne.mpr h, or_iff_right h]

theorem get?_foldl_insert (keys : List String) (value : α) (d : Dict α) (key : String) :
    (keys.foldl (·.insert · value) d).get? key =
      if key ∈ keys then some value else d.get? key := by
  induction keys generalizing d with
  | nil => simp
  | cons first keys ih =>
    rw [List.foldl_cons, ih]
    by_cases hfirst : key = first
    · rw [hfirst, get?_insert_self, ite_self, if_pos List.mem_cons_self]
    · rw [get?_insert_of_ne hfirst]
      simp [hfirst]

end Dict

namespace Registry

variable {taken extensions : List String}

/-! ### Extensions -/

theorem clash?_eq_none :
    clash? taken extensions = none ↔ extensions.Nodup ∧ ∀ e ∈ extensions, e ∉ taken := by
  induction extensions generalizing taken with
  | nil => simp [clash?]
  | cons first extensions ih =>
    rw [clash?]
    by_cases hfirst : first ∈ taken
    · simp [hfirst]
    · rw [if_neg (by simpa using hfirst), ih]
      simp only [List.nodup_cons, List.mem_cons, not_or, forall_eq_or_imp]
      constructor
      · rintro ⟨hnodup, hfree⟩
        exact ⟨⟨fun h => (hfree first h).1 rfl, hnodup⟩, hfirst, fun e he => (hfree e he).2⟩
      · rintro ⟨⟨hnew, hnodup⟩, -, hfree⟩
        exact ⟨hnodup, fun e he => ⟨fun heq => hnew (heq ▸ he), hfree e he⟩⟩

/-- An extension clashes if it is taken or comes a second time, and nothing before it clashes. -/
theorem clash?_eq_some {e : String} : clash? taken extensions = some e ↔
    ∃ before rest, extensions = before ++ e :: rest ∧ clash? taken before = none ∧
      (e ∈ taken ∨ e ∈ before) := by
  induction extensions generalizing taken with
  | nil => simp [clash?]
  | cons first extensions ih =>
    rw [clash?]
    by_cases hfirst : first ∈ taken
    · rw [if_pos (by simpa using hfirst)]
      constructor
      · rintro ⟨⟩
        exact ⟨[], extensions, rfl, rfl, Or.inl hfirst⟩
      · rintro ⟨before, rest, heq, hbefore, -⟩
        cases before with
        | nil => rw [(List.cons.inj heq).1]
        | cons b before =>
          rw [← (List.cons.inj heq).1] at hbefore
          exact absurd hfirst ((clash?_eq_none.mp hbefore).2 first List.mem_cons_self)
    · rw [if_neg (by simpa using hfirst), ih]
      constructor
      · rintro ⟨before, rest, rfl, hbefore, he⟩
        refine ⟨first :: before, rest, rfl, ?_, ?_⟩
        · rwa [clash?, if_neg (by simpa using hfirst)]
        · rw [List.mem_cons] at he ⊢
          tauto
      · rintro ⟨before, rest, heq, hbefore, he⟩
        cases before with
        | nil =>
          rw [← (List.cons.inj heq).1] at he
          exact absurd he (by simpa using hfirst)
        | cons b before =>
          obtain ⟨rfl, rfl⟩ := List.cons.inj heq
          rw [clash?, if_neg (by simpa using hfirst)] at hbefore
          refine ⟨before, rest, rfl, hbefore, ?_⟩
          rw [List.mem_cons] at he ⊢
          tauto

end Registry

/-- Whether a parser lists an extension, whatever points are in front and in whatever case. -/
def Parser.lists (parser : Parser) (extension : String) : Bool :=
  (parser.extensions.map Registry.normalizeExtension).contains
    (Registry.normalizeExtension extension)

/-- Whether a parser is one for a file. -/
def Parser.reads (parser : Parser) (fileName : String) : Bool :=
  (Path.extension? fileName).any parser.lists

/-! ### Calls -/

/-- A call that changes a registry. -/
inductive Registration where
  | parser (parser : Parser)
  | plugin (plugin : Plugin)
  | reset

namespace Registration

def isReset : Registration → Bool
  | .reset => true
  | _ => false

def parser? : Registration → Option Parser
  | .parser p => some p
  | _ => none

def plugin? : Registration → Option Plugin
  | .plugin p => some p
  | _ => none

end Registration

namespace Registry

/-- The registry that a call makes. -/
def attempt (r : Registry) : Registration → Except ConfigError Registry
  | .parser p => r.addParser p
  | .plugin p => r.addPlugin p
  | .reset => .ok empty

/-- What a call answers, and the registry after it. -/
def perform (r : Registry) (call : Registration) : Except ConfigError Unit × Registry :=
  ((r.attempt call).map fun _ => (), (r.attempt call).toOption.getD r)

/-- The registry after some calls on a new one. -/
def after (calls : List Registration) : Registry :=
  calls.foldl (fun r call => (r.perform call).2) empty

/-- Calls with their answers. -/
def history (r : Registry) : List Registration → List (Registration × Except ConfigError Unit)
  | [] => []
  | call :: calls => (call, (r.perform call).1) :: history (r.perform call).2 calls

/-- The calls since the last reset that did not fail. -/
def standing (calls : List Registration) : List Registration :=
  (((history empty calls).rtakeWhile (!·.1.isReset)).filter (·.2.isOk)).map (·.1)

def standingParsers (calls : List Registration) : List Parser :=
  (standing calls).filterMap (·.parser?)

def standingPlugins (calls : List Registration) : List Plugin :=
  (standing calls).filterMap (·.plugin?)

variable {r : Registry} {calls : List Registration} {call : Registration}

theorem after_concat (calls : List Registration) (call : Registration) :
    after (calls ++ [call]) = ((after calls).perform call).2 := by
  rw [after, List.foldl_append]
  rfl

theorem history_concat (calls : List Registration) (call : Registration) :
    history empty (calls ++ [call]) =
      history empty calls ++ [(call, ((after calls).perform call).1)] := by
  unfold after
  generalize empty = r
  induction calls generalizing r with
  | nil => rfl
  | cons first calls ih =>
    rw [List.cons_append, history, ih, history, List.cons_append, List.foldl_cons]

theorem standing_concat_reset (calls : List Registration) :
    standing (calls ++ [.reset]) = [] := by
  rw [standing, history_concat, List.rtakeWhile_concat_neg _ _ _ (by simp [Registration.isReset])]
  rfl

theorem standing_concat_of_ok (hreset : call.isReset = false)
    (hok : ((after calls).perform call).1 = .ok ()) :
    standing (calls ++ [call]) = standing calls ++ [call] := by
  rw [standing, history_concat, List.rtakeWhile_concat_pos _ _ _ (by simp [hreset]),
    List.filter_append, List.map_append, hok]
  rfl

theorem standing_concat_of_error {e : ConfigError} (hreset : call.isReset = false)
    (herror : ((after calls).perform call).1 = .error e) :
    standing (calls ++ [call]) = standing calls := by
  rw [standing, history_concat, List.rtakeWhile_concat_pos _ _ _ (by simp [hreset]),
    List.filter_append, List.map_append, herror]
  exact List.append_nil _

/-! ### What stands -/

/-- Why a call fails after some others. -/
def Refused (calls : List Registration) : Registration → ConfigError → Prop
  | .parser p, e => ∃ before extension rest, p.extensions = before ++ extension :: rest ∧
      e = .duplicateParserExtension (normalizeExtension extension) ∧
      (before.map normalizeExtension).Nodup ∧
      (∀ x ∈ before, ∀ q ∈ standingParsers calls, q.lists x = false) ∧
      ((∃ q ∈ standingParsers calls, q.lists extension) ∨
        ∃ x ∈ before, normalizeExtension x = normalizeExtension extension)
  | .plugin p, e => e = .duplicatePluginId p.id ∧ ∃ q ∈ standingPlugins calls, q.id = p.id
  | .reset, _ => False

/-- A registry that holds what stands after some calls. -/
structure Holds (r : Registry) (calls : List Registration) : Prop where
  plugins : r.plugins = standingPlugins calls
  nodup : r.ids.Nodup
  /-- One parser at most lists an extension, and it is found under it. -/
  parsers : ∀ extension, (standingParsers calls).filter (·.lists extension) =
    (r.parsers.get? (normalizeExtension extension)).toList

theorem Holds.mem_keys (h : r.Holds calls) (extension : String) :
    normalizeExtension extension ∈ r.parsers.keys ↔
      ∃ q ∈ standingParsers calls, q.lists extension := by
  have hfound := h.parsers extension
  rw [Dict.mem_keys]
  cases hget : r.parsers.get? (normalizeExtension extension) with
  | none =>
    rw [hget] at hfound
    simpa [List.filter_eq_nil_iff] using hfound
  | some p =>
    rw [hget] at hfound
    have hp : p ∈ (standingParsers calls).filter (·.lists extension) := by
      rw [hfound]
      exact List.mem_singleton_self p
    exact iff_of_true rfl ⟨p, List.mem_filter.mp hp⟩

theorem isSome_plugin? (r : Registry) (id : String) : (r.plugin? id).isSome ↔ id ∈ r.ids := by
  rw [plugin?, List.find?_isSome, ids, List.mem_map]
  simp

theorem perform_eq_error {e : ConfigError} (h : (r.perform call).1 = .error e) :
    (r.perform call).2 = r := by
  unfold perform at h ⊢
  cases hresult : r.attempt call with
  | error => rfl
  | ok =>
    rw [hresult] at h
    cases h

theorem Holds.clash?_eq_none (h : r.Holds calls) (extensions : List String) :
    clash? r.parsers.keys (extensions.map normalizeExtension) = none ↔
      (extensions.map normalizeExtension).Nodup ∧
        ∀ x ∈ extensions, ∀ q ∈ standingParsers calls, q.lists x = false := by
  rw [Registry.clash?_eq_none, List.forall_mem_map]
  refine and_congr_right fun _ => forall₂_congr fun x _ => ?_
  rw [h.mem_keys]
  simp

/-- A call fails for what stands. -/
theorem Holds.refused_iff (h : r.Holds calls) (call : Registration) (e : ConfigError) :
    (r.perform call).1 = .error e ↔ Refused calls call e := by
  cases call with
  | parser p =>
    have hperform : (r.perform (.parser p)).1 = .error e ↔
        ∃ x, clash? r.parsers.keys (p.extensions.map normalizeExtension) = some x ∧
          e = .duplicateParserExtension x := by
      unfold perform attempt addParser
      dsimp only
      cases clash? r.parsers.keys (p.extensions.map normalizeExtension) with
      | none => simp [Except.map]
      | some x => simp [Except.map, eq_comm]
    rw [hperform, Refused]
    constructor
    · rintro ⟨x, hclash, rfl⟩
      obtain ⟨before', rest', heq, hbefore, hx⟩ := clash?_eq_some.mp hclash
      obtain ⟨before, rest, hextensions, rfl, hrest⟩ := List.map_eq_append_iff.mp heq
      obtain ⟨extension, rest, rfl, rfl, rfl⟩ := List.map_eq_cons_iff.mp hrest
      obtain ⟨hnodup, hfree⟩ := (h.clash?_eq_none before).mp hbefore
      refine ⟨before, extension, rest, hextensions, rfl, hnodup, hfree, ?_⟩
      rwa [h.mem_keys, List.mem_map] at hx
    · rintro ⟨before, extension, rest, hextensions, rfl, hnodup, hfree, hx⟩
      refine ⟨_, clash?_eq_some.mpr ⟨before.map normalizeExtension, rest.map normalizeExtension, ?_,
        (h.clash?_eq_none before).mpr ⟨hnodup, hfree⟩, ?_⟩, rfl⟩
      · rw [hextensions, List.map_append, List.map_cons]
      · rwa [h.mem_keys, List.mem_map]
  | plugin p =>
    rw [Refused, ← h.plugins, ← List.mem_map, ← ids, ← isSome_plugin?]
    unfold perform attempt addPlugin
    dsimp only
    split_ifs with hid
    · simp [hid, Except.map, eq_comm]
    · simp [hid, Except.map]
  | reset => exact iff_of_false nofun id

theorem perform_parser_eq_ok {p : Parser} (h : (r.perform (.parser p)).1 = .ok ()) :
    clash? r.parsers.keys (p.extensions.map normalizeExtension) = none ∧
      (r.perform (.parser p)).2 = { r with parsers :=
        (p.extensions.map normalizeExtension).foldl (·.insert · p) r.parsers } := by
  unfold perform attempt addParser at h ⊢
  dsimp only at h ⊢
  cases hclash : clash? r.parsers.keys (p.extensions.map normalizeExtension) with
  | none => exact ⟨rfl, rfl⟩
  | some x =>
    rw [hclash] at h
    cases h

theorem perform_plugin_eq_ok {p : Plugin} (h : (r.perform (.plugin p)).1 = .ok ()) :
    p.id ∉ r.ids ∧
      (r.perform (.plugin p)).2 = { r with plugins := r.plugins ++ [p] } := by
  unfold perform attempt addPlugin at h ⊢
  dsimp only at h ⊢
  split_ifs at h ⊢ with hid
  · cases h
  · exact ⟨fun hmem => hid ((r.isSome_plugin? p.id).mpr hmem), rfl⟩

/-- Calls that stand go on to be held. -/
theorem Holds.perform (h : (after calls).Holds calls) (call : Registration) :
    (after (calls ++ [call])).Holds (calls ++ [call]) := by
  rw [after_concat]
  by_cases hreset : call = .reset
  · subst hreset
    refine ⟨?_, List.nodup_nil, fun extension => ?_⟩
    · rw [standingPlugins, standing_concat_reset]
      rfl
    · rw [standingParsers, standing_concat_reset]
      rfl
  have hreset : call.isReset = false := by
    cases call with
    | reset => exact absurd rfl hreset
    | _ => rfl
  cases hanswer : ((after calls).perform call).1 with
  | error e =>
    have hsame := standing_concat_of_error hreset hanswer
    rw [perform_eq_error hanswer]
    refine ⟨?_, h.nodup, fun extension => ?_⟩
    · rw [standingPlugins, hsame]
      exact h.plugins
    · rw [standingParsers, hsame]
      exact h.parsers extension
  | ok =>
    have hmore := standing_concat_of_ok hreset hanswer
    cases call with
    | parser p =>
      obtain ⟨hclash, hstate⟩ := perform_parser_eq_ok hanswer
      obtain ⟨_, hfree⟩ := (h.clash?_eq_none p.extensions).mp hclash
      rw [hstate]
      refine ⟨?_, h.nodup, fun extension => ?_⟩
      · rw [standingPlugins, hmore, List.filterMap_append]
        exact h.plugins.trans (List.append_nil _).symm
      · rw [standingParsers, hmore, List.filterMap_append, List.filter_append,
          Dict.get?_foldl_insert]
        by_cases hlists : p.lists extension
        · obtain ⟨x, hx, heq⟩ := List.mem_map.mp (List.contains_iff_mem.mp hlists)
          have hnone : (standingParsers calls).filter (·.lists extension) = [] := by
            rw [List.filter_eq_nil_iff]
            intro q hq
            rw [Parser.lists, ← heq]
            exact Bool.eq_false_iff.mp (hfree x hx q hq)
          rw [if_pos (List.contains_iff_mem.mp hlists), ← standingParsers, hnone]
          exact List.filter_cons_of_pos (p := fun q : Parser => q.lists extension) hlists
        · rw [if_neg fun hmem => hlists (List.contains_iff_mem.mpr hmem), ← standingParsers,
            h.parsers extension]
          refine (congrArg _ ?_).trans (List.append_nil _)
          exact List.filter_cons_of_neg hlists
    | plugin p =>
      obtain ⟨hid, hstate⟩ := perform_plugin_eq_ok hanswer
      rw [hstate]
      refine ⟨?_, ?_, fun extension => ?_⟩
      · rw [standingPlugins, hmore, List.filterMap_append, h.plugins]
        rfl
      · rw [ids, List.map_append]
        exact List.concat_eq_append ▸ h.nodup.concat hid
      · rw [standingParsers, hmore, List.filterMap_append]
        exact (congrArg _ (List.append_nil _)).trans (h.parsers extension)
    | reset => cases hreset

theorem holds_after (calls : List Registration) : (after calls).Holds calls := by
  induction calls using List.reverseRecOn with
  | nil => exact ⟨rfl, List.nodup_nil, fun _ => rfl⟩
  | append_singleton calls call ih => exact ih.perform call

/-- The parser for a file is the one that stands and lists its extension. -/
theorem Holds.parserFor? (h : r.Holds calls) (fileName : String) :
    (standingParsers calls).filter (·.reads fileName) = (r.parserFor? fileName).toList := by
  unfold Registry.parserFor? Parser.reads
  cases Path.extension? fileName with
  | none => exact List.filter_false _
  | some extension => exact h.parsers extension

/--
After any calls on a new registry, a call fails for what stands, and changes nothing then. The ids of
plugins differ, and the plugins of every view come in the order in which they were registered. Of
the parsers that stand one at most lists the extension of a file, and it is the parser for the file.
-/
theorem after_standing (calls : List Registration) :
    (∀ call e, ((after calls).perform call).1 = .error e ↔ Refused calls call e) ∧
    (∀ call e, ((after calls).perform call).1 = .error e →
      after (calls ++ [call]) = after calls) ∧
    (after calls).ids.Nodup ∧
    (after calls).ids = (standingPlugins calls).map (·.id) ∧
    (∀ capability, (after calls).implementing capability =
      (standingPlugins calls).filter (·.has capability)) ∧
    (after calls).lints = (standingPlugins calls).filterMap
      (fun p => p.lint.map (p.id, ·)) ∧
    (after calls).projectLints = (standingPlugins calls).filterMap
      (fun p => p.projectLint.map (p.id, ·)) ∧
    (after calls).documentations = (standingPlugins calls).filterMap
      (fun p => p.documentation.map (p.id, ·)) ∧
    ∀ fileName, (standingParsers calls).filter (·.reads fileName) =
      ((after calls).parserFor? fileName).toList := by
  have h := holds_after calls
  refine ⟨h.refused_iff, fun call e herror => ?_, h.nodup, ?_, fun capability => ?_, ?_, ?_, ?_,
    h.parserFor?⟩
  · rw [after_concat, perform_eq_error herror]
  · rw [ids, h.plugins]
  · rw [implementing, h.plugins]
  · rw [lints, h.plugins]
  · rw [projectLints, h.plugins]
  · rw [documentations, h.plugins]

end Registry

end PhpLint
