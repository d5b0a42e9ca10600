import PhpLint.Proofs.Project.Database

/-!
Ancestors of a class. The search for them follows names that anybody can write, in circles too. It
ends because every step finds a class whose name has not been seen, and what it finds is the
longest line of parents in which no class comes twice.
-/
namespace PhpLint.ProjectDatabase

variable {db : ProjectDatabase} {name : String} {seen : List String}
  {c parent start : ClassDeclaration} {found chain : List ClassDeclaration}

/-- The parent of a class unless its name has been seen. -/
def next? (db : ProjectDatabase) (seen : List String) (c : ClassDeclaration) :
    Option ClassDeclaration :=
  (db.parent? c).filter fun parent => !seen.any (Text.sameFold · parent.name)

/-- A search that goes on as long as there is a next class, and what it finds. -/
inductive Search (db : ProjectDatabase) :
    List String → ClassDeclaration → List ClassDeclaration → Prop
  | ends {seen : List String} {c : ClassDeclaration} (h : db.next? seen c = none) :
    Search db seen c []
  | goesOn {seen : List String} {c parent : ClassDeclaration} {found : List ClassDeclaration}
    (h : db.next? seen c = some parent) (hrest : Search db (parent.name :: seen) parent found) :
    Search db seen c (parent :: found)

/-- The classes behind one class, each the parent of the one before it, and none of them twice. -/
structure IsLineage (db : ProjectDatabase) (c : ClassDeclaration)
    (chain : List ClassDeclaration) : Prop where
  links : (c :: chain).IsChain fun c parent => db.parent? c = some parent
  distinct : (c :: chain).Pairwise fun a b => ¬ Text.sameFold a.name b.name

/-- Why a lineage does not go on behind its last class. -/
inductive Ends (db : ProjectDatabase) (lineage : List ClassDeclaration)
    (last : ClassDeclaration) : Prop
  | noParent (h : last.parents = [])
  | unknownParent {name : String} {others : List String} (h : last.parents = name :: others)
    (hunknown : db.class? name = none)
  | repeats {parent earlier : ClassDeclaration} (h : db.parent? last = some parent)
    (hearlier : earlier ∈ lineage) (hsame : Text.sameFold earlier.name parent.name)

/-! ### Single steps -/

theorem next?_eq_some_iff : db.next? seen c = some parent ↔
    db.parent? c = some parent ∧ ∀ name ∈ seen, ¬ Text.sameFold name parent.name := by
  unfold next?
  rw [Option.filter_eq_some_iff]
  simp

theorem next?_eq_none_iff : db.next? seen c = none ↔
    ∀ parent, db.parent? c = some parent → ∃ name ∈ seen, Text.sameFold name parent.name := by
  unfold next?
  rw [Option.filter_eq_none_iff]
  simp

theorem ancestorsFrom_succ (db : ProjectDatabase) (seen : List String) (c : ClassDeclaration)
    (steps : Nat) : db.ancestorsFrom seen c (steps + 1) = match db.next? seen c with
      | none => []
      | some parent => parent :: db.ancestorsFrom (parent.name :: seen) parent steps := by
  rw [ancestorsFrom]
  unfold next?
  cases db.parent? c with
  | none => rfl
  | some parent =>
    dsimp only
    rw [Option.filter_some]
    cases seen.any (Text.sameFold · parent.name) <;> rfl

/-! ### The bound on the steps -/

/-- Number of classes with a name that has not been seen. -/
def unseen (db : ProjectDatabase) (seen : List String) : Nat :=
  db.classes.values.countP fun c => !seen.any (Text.sameFold · c.name)

theorem mem_values_of_class? (h : db.class? name = some c) : c ∈ db.classes.values := by
  obtain ⟨before, after, hclasses, _⟩ := List.lookup_eq_some_iff.mp h
  unfold Dict.values
  rw [hclasses, List.map_append]
  exact List.mem_append_right _ List.mem_cons_self

theorem mem_values_of_parent? (h : db.parent? c = some parent) : parent ∈ db.classes.values := by
  obtain ⟨name, _, hclass⟩ := Option.bind_eq_some_iff.mp h
  exact mem_values_of_class? hclass

/-- A step leaves one class less to be seen. -/
theorem unseen_lt_of_next? (h : db.next? seen c = some parent) :
    db.unseen (parent.name :: seen) < db.unseen seen := by
  obtain ⟨hparent, hfresh⟩ := next?_eq_some_iff.mp h
  have hnarrow : db.unseen (parent.name :: seen) =
      (db.classes.values.filter fun c => !seen.any (Text.sameFold · c.name)).countP
        fun c => !Text.sameFold parent.name c.name := by
    unfold unseen
    rw [List.countP_filter]
    refine List.countP_congr fun c _ => ?_
    rw [List.any_cons, Bool.not_or]
  rw [hnarrow, unseen, List.countP_eq_length_filter (l := db.classes.values),
    List.countP_lt_length_iff]
  refine ⟨parent, List.mem_filter.mpr ⟨mem_values_of_parent? hparent, ?_⟩, ?_⟩
  · simpa using hfresh
  · simp [Text.sameFold]

/-- With a step for every class to be seen, the bound does not end the search. -/
theorem search_ancestorsFrom {steps : Nat} (h : db.unseen seen ≤ steps) :
    db.Search seen c (db.ancestorsFrom seen c steps) := by
  induction steps generalizing seen c with
  | zero =>
    refine .ends (Option.eq_none_iff_forall_ne_some.mpr fun parent hnext => ?_)
    have := unseen_lt_of_next? hnext
    omega
  | succ steps ih =>
    rw [ancestorsFrom_succ]
    cases hnext : db.next? seen c with
    | none => exact .ends hnext
    | some parent =>
      have hlt := unseen_lt_of_next? hnext
      exact .goesOn hnext (ih (by omega))

theorem search_ancestors (h : db.class? name = some start) :
    db.Search [name] start (db.ancestors name) := by
  unfold ancestors
  rw [h]
  refine search_ancestorsFrom (List.countP_le_length.trans_eq ?_)
  exact List.length_map _

theorem Search.unique {found' : List ClassDeclaration} (h : db.Search seen c found)
    (h' : db.Search seen c found') : found = found' := by
  induction h generalizing found' with
  | ends hnext =>
    cases h' with
    | ends => rfl
    | goesOn hnext' => rw [hnext] at hnext'; contradiction
  | goesOn hnext _ ih =>
    cases h' with
    | ends hnext' => rw [hnext] at hnext'; contradiction
    | goesOn hnext' hrest' =>
      rw [hnext, Option.some_inj] at hnext'
      subst hnext'
      rw [ih hrest']

/-! ### What a search finds -/

/-- None of some classes has a name that has been seen. -/
def AreFresh (seen : List String) (chain : List ClassDeclaration) : Prop :=
  ∀ a ∈ chain, ∀ name ∈ seen, ¬ Text.sameFold name a.name

theorem areFresh_cons : AreFresh (c.name :: seen) chain ↔
    (∀ a ∈ chain, ¬ Text.sameFold c.name a.name) ∧ AreFresh seen chain := by
  unfold AreFresh
  simp only [List.forall_mem_cons, forall_and]

theorem Search.links (h : db.Search seen c found) :
    (c :: found).IsChain fun c parent => db.parent? c = some parent := by
  induction h with
  | ends => exact List.isChain_singleton _
  | goesOn hnext _ ih => exact List.isChain_cons_cons.mpr ⟨(next?_eq_some_iff.mp hnext).1, ih⟩

/-- What has been found is seen from then on, so that nothing is found twice. -/
theorem Search.distinct (h : db.Search seen c found) :
    AreFresh seen found ∧ found.Pairwise fun a b => ¬ Text.sameFold a.name b.name := by
  induction h with
  | ends => exact ⟨fun _ ha => absurd ha List.not_mem_nil, List.Pairwise.nil⟩
  | goesOn hnext _ ih =>
    obtain ⟨hfresh, hdistinct⟩ := ih
    obtain ⟨hparent, hseen⟩ := areFresh_cons.mp hfresh
    refine ⟨?_, List.pairwise_cons.mpr ⟨hparent, hdistinct⟩⟩
    exact List.forall_mem_cons.mpr ⟨(next?_eq_some_iff.mp hnext).2, hseen⟩

theorem Search.last (h : db.Search seen c found) {last : ClassDeclaration}
    (hlast : (c :: found).getLast? = some last) (hparent : db.parent? last = some parent) :
    (∃ name ∈ seen, Text.sameFold name parent.name) ∨
      ∃ a ∈ found, Text.sameFold a.name parent.name := by
  induction h with
  | ends hnext =>
    obtain rfl := Option.some.inj hlast
    exact Or.inl (next?_eq_none_iff.mp hnext parent hparent)
  | @goesOn seen c next found hnext _ ih =>
    rw [List.getLast?_cons_cons] at hlast
    rcases ih hlast with ⟨name, hname, hsame⟩ | ⟨a, ha, hsame⟩
    · rcases List.mem_cons.mp hname with rfl | hname
      · exact Or.inr ⟨next, List.mem_cons_self, hsame⟩
      · exact Or.inl ⟨name, hname, hsame⟩
    · exact Or.inr ⟨a, List.mem_cons_of_mem next ha, hsame⟩

/-- Parents are unique, so that every other line ends earlier. -/
theorem Search.longest (h : db.Search seen c found)
    (hlinks : (c :: chain).IsChain fun c parent => db.parent? c = some parent)
    (hfresh : AreFresh seen chain)
    (hdistinct : chain.Pairwise fun a b => ¬ Text.sameFold a.name b.name) : chain <+: found := by
  induction h generalizing chain with
  | ends hnext =>
    cases chain with
    | nil => exact List.nil_prefix
    | cons a chain =>
      obtain ⟨name, hname, hsame⟩ :=
        next?_eq_none_iff.mp hnext a (List.isChain_cons_cons.mp hlinks).1
      exact absurd hsame (hfresh a List.mem_cons_self name hname)
  | goesOn hnext _ ih =>
    cases chain with
    | nil => exact List.nil_prefix
    | cons a chain =>
      obtain ⟨hparent, hrest⟩ := List.isChain_cons_cons.mp hlinks
      obtain ⟨hfirst, hdistinct⟩ := List.pairwise_cons.mp hdistinct
      have hnext' := (next?_eq_some_iff.mp hnext).1
      rw [hparent, Option.some_inj] at hnext'
      subst hnext'
      have hfresh' := areFresh_cons.mpr ⟨hfirst, (List.forall_mem_cons.mp hfresh).2⟩
      exact List.cons_prefix_cons.mpr ⟨rfl, ih hrest hfresh' hdistinct⟩

/-! ### Ancestors -/

/-- Classes are found under their names, whatever their case. -/
theorem Recalls.fold_name {classes : List ClassDeclaration} {functions : List FunctionDeclaration}
    (h : db.Recalls classes functions) (hclass : db.class? name = some c) :
    Text.fold c.name = key name := by
  unfold ProjectDatabase.class? at hclass
  rw [h.class? (key name)] at hclass
  simpa using List.find?_some hclass

/-- A search that is told the name of a class beforehand never comes back to the class. -/
theorem isLineage_iff (hname : Text.fold c.name = Text.fold name) : db.IsLineage c chain ↔
    ((c :: chain).IsChain fun c parent => db.parent? c = some parent) ∧ AreFresh [name] chain ∧
      chain.Pairwise fun a b => ¬ Text.sameFold a.name b.name := by
  have hfresh : AreFresh [name] chain ↔ ∀ a ∈ chain, ¬ Text.sameFold c.name a.name := by
    unfold AreFresh Text.sameFold
    simp only [List.forall_mem_singleton, hname]
  constructor
  · rintro ⟨hlinks, hdistinct⟩
    obtain ⟨hfirst, hdistinct⟩ := List.pairwise_cons.mp hdistinct
    exact ⟨hlinks, hfresh.mpr hfirst, hdistinct⟩
  · rintro ⟨hlinks, hfirst, hdistinct⟩
    exact ⟨hlinks, List.pairwise_cons.mpr ⟨hfresh.mp hfirst, hdistinct⟩⟩

theorem Search.ends_last (hname : Text.fold start.name = Text.fold name)
    (h : db.Search [name] start found) {last : ClassDeclaration}
    (hlast : (start :: found).getLast? = some last) : db.Ends (start :: found) last := by
  cases hparents : last.parents with
  | nil => exact .noParent hparents
  | cons parentName others =>
    cases hclass : db.class? parentName with
    | none => exact .unknownParent hparents hclass
    | some parent =>
      have hparent : db.parent? last = some parent := by
        unfold parent?
        rw [hparents]
        exact hclass
      rcases h.last hlast hparent with ⟨seenName, hseen, hsame⟩ | ⟨a, ha, hsame⟩
      · refine .repeats hparent List.mem_cons_self ?_
        unfold Text.sameFold at hsame ⊢
        rwa [List.mem_singleton.mp hseen, ← hname] at hsame
      · exact .repeats hparent (List.mem_cons_of_mem start ha) hsame

/--
In every database that is built from files the search for ancestors ends. It finds the longest line
of parents behind a class in which no class comes twice, in any case: the line stops at a class that
names no parent, whose parent is unknown, or whose parent is in the line already.
-/
theorem ancestors_longest (files : List FileDeclarations) (hbare : IsBare name) :
    let db := (empty.addFiles files).1
    (db.class? name = none → db.ancestors name = []) ∧
    ∀ start, db.class? name = some start →
      (∀ found, db.Search [name] start found ↔ found = db.ancestors name) ∧
      db.IsLineage start (db.ancestors name) ∧
      (∀ chain, db.IsLineage start chain → chain <+: db.ancestors name) ∧
      ∀ last, (start :: db.ancestors name).getLast? = some last →
        db.Ends (start :: db.ancestors name) last := by
  intro db
  refine ⟨fun hnone => ?_, fun start hstart => ?_⟩
  · unfold ancestors
    rw [hnone]
  · obtain ⟨hrecalls, _⟩ := recalls_empty.addFiles files
    have hname : Text.fold start.name = Text.fold name := by
      rw [hrecalls.fold_name hstart, key, dropLeading_of_isBare hbare]
    have hsearch := search_ancestors hstart
    obtain ⟨hfresh, hdistinct⟩ := hsearch.distinct
    refine ⟨fun found => ⟨fun h => h.unique hsearch, fun h => h ▸ hsearch⟩, ?_, ?_, ?_⟩
    · exact (isLineage_iff hname).mpr ⟨hsearch.links, hfresh, hdistinct⟩
    · intro chain hchain
      obtain ⟨hlinks, hfresh, hdistinct⟩ := (isLineage_iff hname).mp hchain
      exact hsearch.longest hlinks hfresh hdistinct
    · exact fun last hlast => hsearch.ends_last hname hlast

/-- A circle that does not lead back to the class whose ancestors are asked for. -/
theorem ancestors_longest_circle :
    let declared (name : String) (parents : List String) : ClassDeclaration :=
      { (default : ClassDeclaration) with name, parents }
    let files : List FileDeclarations := [⟨"a.php",
      [declared "A" ["B"], declared "B" ["\\c", "A"], declared "C" ["b"]], []⟩]
    let db := (empty.addFiles files).1
    IsBare "a" ∧ (db.ancestors "a").map (·.name) = ["B", "C"] ∧
      db.IsLineage (declared "A" ["B"]) (db.ancestors "a") ∧
      db.Ends (declared "A" ["B"] :: db.ancestors "a") (declared "C" ["b"]) := by
  intro declared files db
  have hbare : IsBare "a" := by decide
  have hstart : db.class? "a" = some (declared "A" ["B"]) := by decide +kernel
  have hfound : db.ancestors "a" = [declared "B" ["\\c", "A"], declared "C" ["b"]] := by
    decide +kernel
  obtain ⟨_, hlineage, _, hends⟩ := (ancestors_longest files hbare).2 _ hstart
  refine ⟨hbare, by rw [hfound]; rfl, hlineage, hends _ ?_⟩
  change (declared "A" ["B"] :: db.ancestors "a").getLast? = _
  rw [hfound]
  rfl

end PhpLint.ProjectDatabase
