import Mathlib
import PhpLint.Dict

/-! Dictionaries keep their keys in order, so that a restriction can be made before or after. -/
namespace PhpLint

/-- The entries of one key do not count for another one. -/
theorem lookup_filter_of_ne {α β : Type} [BEq α] [LawfulBEq α] {a b : α} (h : a ≠ b)
    (l : List (α × β)) : (l.filter (·.1 != b)).lookup a = l.lookup a := by
  induction l with
  | nil => rfl
  | cons entry l ih =>
    by_cases hb : entry.1 = b
    · have hkey : (a == entry.1) = false := by
        rw [beq_eq_false_iff_ne, hb]
        exact h
      rw [List.filter_cons_of_neg (by simp [hb]), ih, List.lookup_cons, hkey]
    · rw [List.filter_cons_of_pos (by simpa using hb), List.lookup_cons, List.lookup_cons, ih]

/-- What stands before an element differs from it under a function that takes no value twice. -/
theorem ne_of_nodup_map {α β : Type} {f : α → β} {before after : List α} {a b : α}
    (h : ((before ++ a :: after).map f).Nodup) (hb : b ∈ before) : f b ≠ f a := by
  rw [List.map_append, List.map_cons, List.nodup_append] at h
  exact h.2.2 (f b) (List.mem_map_of_mem hb) (f a) List.mem_cons_self

namespace Dict

variable {α : Type} {d : Dict α} {key : String} {keep : String → Bool}

/-- The keys rise, so that each comes once. -/
def Sorted (d : Dict α) : Prop :=
  d.Pairwise (·.1 < ·.1)

/-- The entries of some keys. -/
def restrict (keep : String → Bool) (d : Dict α) : Dict α :=
  d.filter fun entry => keep entry.1

theorem sorted_nil : Sorted ([] : Dict α) :=
  List.Pairwise.nil

theorem Sorted.restrict (h : Sorted d) (keep : String → Bool) : Sorted (d.restrict keep) :=
  h.sublist List.filter_sublist

theorem mem_insert {entry : String × α} {value : α} (h : entry ∈ d.insert key value) :
    entry = (key, value) ∨ entry ∈ d := by
  induction d with
  | nil => exact Or.inl (List.mem_singleton.mp h)
  | cons first rest ih =>
    rw [insert] at h
    split at h
    · rcases List.mem_cons.mp h with h | h
      · exact Or.inl h
      · exact Or.inr (List.mem_cons_of_mem first h)
    · split at h
      · exact List.mem_cons.mp h
      · rcases List.mem_cons.mp h with h | h
        · exact Or.inr (h ▸ List.mem_cons_self)
        · exact (ih h).imp_right (List.mem_cons_of_mem first)

theorem Sorted.insert (h : Sorted d) (key : String) (value : α) : Sorted (d.insert key value) := by
  induction d with
  | nil => exact List.pairwise_singleton _ _
  | cons first rest ih =>
    obtain ⟨hfirst, hrest⟩ := List.pairwise_cons.mp h
    rw [Dict.insert]
    split
    · rename_i heq
      rw [eq_of_beq heq]
      exact List.pairwise_cons.mpr ⟨hfirst, hrest⟩
    · rename_i hne
      split
      · rename_i hlt
        refine List.pairwise_cons.mpr ⟨?_, h⟩
        intro entry hentry
        rcases List.mem_cons.mp hentry with rfl | hentry
        · exact hlt
        · exact lt_trans hlt (hfirst entry hentry)
      · rename_i hlt
        refine List.pairwise_cons.mpr ⟨?_, ih hrest⟩
        intro entry hentry
        rcases mem_insert hentry with rfl | hentry
        · refine lt_of_le_of_ne (not_lt.mp hlt) fun heq => hne ?_
          rw [heq]
          exact beq_self_eq_true key
        · exact hfirst entry hentry

/-- What is in front of all entries is inserted in front. -/
theorem insert_of_lt {value : α} (h : ∀ entry ∈ d, key < entry.1) :
    d.insert key value = (key, value) :: d := by
  cases d with
  | nil => rfl
  | cons first rest =>
    have hlt := h first List.mem_cons_self
    rw [insert, if_neg (by simpa using hlt.ne), if_pos hlt]

theorem restrict_cons_of_pos (h : keep key) (value : α) (d : Dict α) :
    restrict keep ((key, value) :: d) = (key, value) :: d.restrict keep :=
  List.filter_cons_of_pos h

theorem restrict_cons_of_neg (h : ¬ keep key) (value : α) (d : Dict α) :
    restrict keep ((key, value) :: d) = d.restrict keep :=
  List.filter_cons_of_neg h

theorem restrict_insert_of_pos (h : Sorted d) (hkeep : keep key) (value : α) :
    (d.insert key value).restrict keep = (d.restrict keep).insert key value := by
  induction d with
  | nil => exact restrict_cons_of_pos hkeep value []
  | cons first rest ih =>
    obtain ⟨k, v⟩ := first
    obtain ⟨hfirst, hrest⟩ := List.pairwise_cons.mp h
    rw [insert]
    by_cases heq : key == k
    · rw [if_pos heq, restrict_cons_of_pos hkeep, restrict_cons_of_pos (eq_of_beq heq ▸ hkeep),
        insert, if_pos heq]
    rw [if_neg heq]
    by_cases hlt : key < k
    · have hbefore : ∀ entry ∈ restrict keep ((k, v) :: rest), key < entry.1 := by
        intro entry hentry
        rcases List.mem_cons.mp (List.mem_filter.mp hentry).1 with rfl | hentry
        · exact hlt
        · exact lt_trans hlt (hfirst entry hentry)
      rw [if_pos hlt, restrict_cons_of_pos hkeep, insert_of_lt hbefore]
    · rw [if_neg hlt]
      by_cases hk : keep k
      · rw [restrict_cons_of_pos hk, restrict_cons_of_pos hk, ih hrest, insert, if_neg heq,
          if_neg hlt]
      · rw [restrict_cons_of_neg hk, restrict_cons_of_neg hk, ih hrest]

theorem restrict_insert_of_neg (hkeep : ¬ keep key) (value : α) :
    (d.insert key value).restrict keep = d.restrict keep := by
  induction d with
  | nil => exact restrict_cons_of_neg hkeep value []
  | cons first rest ih =>
    obtain ⟨k, v⟩ := first
    rw [insert]
    by_cases heq : key == k
    · have hk : ¬ keep k := eq_of_beq heq ▸ hkeep
      rw [if_pos heq, restrict_cons_of_neg hkeep, restrict_cons_of_neg hk]
    rw [if_neg heq]
    by_cases hlt : key < k
    · rw [if_pos hlt, restrict_cons_of_neg hkeep]
    · rw [if_neg hlt]
      by_cases hk : keep k
      · rw [restrict_cons_of_pos hk, restrict_cons_of_pos hk, ih]
      · rw [restrict_cons_of_neg hk, restrict_cons_of_neg hk, ih]

theorem get?_restrict (hkeep : keep key) : (d.restrict keep).get? key = d.get? key := by
  induction d with
  | nil => rfl
  | cons first rest ih =>
    obtain ⟨k, v⟩ := first
    unfold get? at ih ⊢
    by_cases hk : keep k
    · rw [restrict_cons_of_pos hk, List.lookup_cons, List.lookup_cons, ih]
    · have hne : (key == k) = false := by
        rw [beq_eq_false_iff_ne]
        rintro rfl
        exact hk hkeep
      rw [restrict_cons_of_neg hk, List.lookup_cons, hne, ih]

/-- Every entry is found by its key. -/
theorem Sorted.get?_of_mem (h : Sorted d) {value : α} (hmem : (key, value) ∈ d) :
    d.get? key = some value := by
  unfold get?
  induction d with
  | nil => contradiction
  | cons first rest ih =>
    obtain ⟨hfirst, hrest⟩ := List.pairwise_cons.mp h
    rw [List.lookup_cons]
    rcases List.mem_cons.mp hmem with rfl | hmem
    · rw [beq_self_eq_true]
    · have hne : (key == first.1) = false := beq_eq_false_iff_ne.mpr (hfirst _ hmem).ne'
      rw [hne]
      exact ih hrest hmem

/-- Entries that are left out need not be inserted. -/
private theorem foldl_insert (entries : List (String × α)) (h : Sorted d) :
    Sorted (entries.foldl (fun d (key, value) => d.insert key value) d) ∧
      (restrict keep entries).foldl (fun d (key, value) => d.insert key value) (d.restrict keep) =
        (entries.foldl (fun d (key, value) => d.insert key value) d).restrict keep := by
  induction entries generalizing d with
  | nil => exact ⟨h, rfl⟩
  | cons entry entries ih =>
    obtain ⟨k, v⟩ := entry
    have hnext := ih (h.insert k v)
    refine ⟨hnext.1, ?_⟩
    rw [List.foldl_cons, ← hnext.2]
    by_cases hk : keep k
    · rw [restrict_cons_of_pos hk, List.foldl_cons, restrict_insert_of_pos h hk]
    · rw [restrict_cons_of_neg hk, restrict_insert_of_neg hk]

/-! ### Look-up -/

theorem get?_insert_self (key : String) (value : α) (d : Dict α) :
    (d.insert key value).get? key = some value := by
  unfold get?
  induction d with
  | nil => rw [insert, List.lookup_cons, beq_self_eq_true]
  | cons first rest ih =>
    rw [insert]
    split
    · rw [List.lookup_cons, beq_self_eq_true]
    · rename_i hne
      split
      · rw [List.lookup_cons, beq_self_eq_true]
      · rw [List.lookup_cons, Bool.eq_false_iff.mpr hne]
        exact ih

theorem get?_insert_of_ne {other : String} (h : other ≠ key) (value : α) (d : Dict α) :
    (d.insert key value).get? other = d.get? other := by
  have hother : (other == key) = false := beq_eq_false_iff_ne.mpr h
  unfold get?
  induction d with
  | nil => rw [insert, List.lookup_cons, hother]
  | cons first rest ih =>
    rw [insert]
    split
    · rename_i heq
      rw [List.lookup_cons, List.lookup_cons, ← eq_of_beq heq, hother]
    · split
      · rw [List.lookup_cons, hother]
      · rw [List.lookup_cons, List.lookup_cons, ih]

theorem Sorted.mem_iff_get? (h : Sorted d) {value : α} :
    (key, value) ∈ d ↔ d.get? key = some value := by
  refine ⟨h.get?_of_mem, fun hget => ?_⟩
  unfold get? at hget
  obtain ⟨before, after, rfl, _⟩ := List.lookup_eq_some_iff.mp hget
  exact List.mem_append_right before List.mem_cons_self

theorem Sorted.nodup (h : Sorted d) : d.Nodup := by
  refine h.imp fun hlt heq => ?_
  rw [heq] at hlt
  exact lt_irrefl _ hlt

theorem Sorted.eq_of_perm {e : Dict α} (hd : Sorted d) (he : Sorted e) (h : d.Perm e) : d = e :=
  h.eq_of_pairwise (fun _ _ _ _ hab hba => absurd hab (lt_asymm hba)) hd he

/-- A dictionary is known from what its keys stand for. -/
theorem Sorted.ext {e : Dict α} (hd : Sorted d) (he : Sorted e)
    (h : ∀ key, d.get? key = e.get? key) : d = e := by
  refine hd.eq_of_perm he ((List.perm_ext_iff_of_nodup hd.nodup he.nodup).mpr ?_)
  rintro ⟨key, value⟩
  rw [hd.mem_iff_get?, he.mem_iff_get?, h]

/-- Gives a key its value unless it has one. -/
def insertNew (key : String) (value : α) (d : Dict α) : Dict α :=
  if d.contains key then d else d.insert key value

theorem Sorted.insertNew (h : Sorted d) (key : String) (value : α) :
    Sorted (d.insertNew key value) := by
  unfold Dict.insertNew
  split
  · exact h
  · exact h.insert key value

/-- Under each key stands the first value of the list that has it. -/
def IsIndex (keyOf : α → String) (d : Dict α) (values : List α) : Prop :=
  ∀ key, d.get? key = values.find? fun a => keyOf a == key

theorem IsIndex.insertNew {keyOf : α → String} {values : List α} (h : IsIndex keyOf d values)
    (a : α) : IsIndex keyOf (d.insertNew (keyOf a) a) (values ++ [a]) := by
  intro key
  unfold Dict.insertNew Dict.contains
  rw [List.find?_append, ← h key, List.find?_singleton]
  by_cases hkey : keyOf a = key
  · subst hkey
    rw [beq_self_eq_true, if_pos rfl]
    cases hget : d.get? (keyOf a) with
    | some first =>
      rw [Option.isSome_some, if_pos rfl, hget]
      rfl
    | none =>
      rw [Option.isSome_none, if_neg Bool.false_ne_true, get?_insert_self]
      rfl
  · rw [beq_false_of_ne hkey, if_neg Bool.false_ne_true, Option.or_none]
    split
    · rfl
    · exact get?_insert_of_ne (Ne.symm hkey) a d

/-- Entries whose values depend on their keys can come in any order, and more than once. -/
theorem get?_ofList {entries : List (String × α)} {f : String → Option α}
    (h : ∀ entry ∈ entries, f entry.1 = some entry.2) (key : String) :
    (ofList entries).get? key = if key ∈ keys entries then f key else none := by
  have hfold (d : Dict α) :
      (entries.foldl (fun d (key, value) => d.insert key value) d).get? key =
        if key ∈ keys entries then f key else d.get? key := by
    induction entries generalizing d with
    | nil => rfl
    | cons entry entries ih =>
      obtain ⟨k, v⟩ := entry
      have hfirst : f k = some v := h (k, v) List.mem_cons_self
      rw [List.foldl_cons, ih fun entry hentry => h entry (List.mem_cons_of_mem _ hentry)]
      by_cases hkey : key = k
      · subst hkey
        have hmem : key ∈ keys ((key, v) :: entries) := List.mem_cons_self
        rw [get?_insert_self, if_pos hmem,
          hfirst, ite_self]
      · rw [get?_insert_of_ne hkey]
        have hmem : key ∈ keys ((k, v) :: entries) ↔ key ∈ keys entries := by
          unfold keys
          rw [List.map_cons, List.mem_cons, or_iff_right hkey]
        simp only [hmem]
  exact hfold []

/-- Values that are collected under their keys stand there in the order in which they come. -/
theorem get?_foldl_update {β : Type} (keyOf : β → String) (valueOf : β → α) (values : List β)
    (d : Dict (List α)) (key : String) :
    (values.foldl (fun d b => d.update (keyOf b) [] (· ++ [valueOf b])) d).get? key =
      if values.any (keyOf · == key) then
        some ((d.get? key).getD [] ++ (values.filter (keyOf · == key)).map valueOf)
      else d.get? key := by
  induction values generalizing d with
  | nil => rfl
  | cons b values ih =>
    rw [List.foldl_cons, ih, List.any_cons, List.filter_cons]
    unfold update
    by_cases hkey : keyOf b = key
    · subst hkey
      rw [get?_insert_self, Option.getD_some, beq_self_eq_true, Bool.true_or, if_pos rfl,
        if_pos rfl, List.map_cons, List.append_assoc, List.singleton_append]
      split_ifs with hany
      · rfl
      · have hnone : values.filter (keyOf · == keyOf b) = [] := by
          rw [List.filter_eq_nil_iff]
          exact fun b' hb' hsame => hany (List.any_eq_true.mpr ⟨b', hb', hsame⟩)
        rw [hnone, List.map_nil]
    · rw [get?_insert_of_ne (Ne.symm hkey), beq_false_of_ne hkey, Bool.false_or,
        if_neg Bool.false_ne_true]

theorem Sorted.foldl_update {β : Type} (h : Sorted d) (keyOf : β → String) (default : β → α)
    (f : β → α → α) (values : List β) :
    Sorted (values.foldl (fun d b => d.update (keyOf b) (default b) (f b)) d) := by
  induction values generalizing d with
  | nil => exact h
  | cons b values ih => exact ih (h.insert _ _)

/-- A sorted dictionary whose values are changed, and whose entries may be left out. -/
theorem Sorted.get?_filterMap {β : Type} (h : Sorted d) (f : String → α → Option β)
    (key : String) : get? (d.filterMap fun entry => (f entry.1 entry.2).map (entry.1, ·)) key =
      (d.get? key).bind (f key) := by
  unfold get?
  induction d with
  | nil => rfl
  | cons first rest ih =>
    obtain ⟨k, v⟩ := first
    obtain ⟨hfirst, hrest⟩ := List.pairwise_cons.mp h
    rw [List.filterMap_cons, List.lookup_cons]
    by_cases hkey : key = k
    · subst hkey
      have hothers : rest.lookup key = none := by
        rw [List.lookup_eq_none_iff]
        intro entry hentry
        simpa using (hfirst entry hentry).ne
      rw [beq_self_eq_true, Option.bind_some]
      cases hvalue : f key v with
      | none =>
        rw [Option.map_none]
        rw [ih hrest, hothers, Option.bind_none]
      | some value => rw [Option.map_some, List.lookup_cons, beq_self_eq_true]
    · have hne : (key == k) = false := beq_eq_false_iff_ne.mpr hkey
      rw [hne]
      cases f k v with
      | none =>
        rw [Option.map_none]
        exact ih hrest
      | some value =>
        rw [Option.map_some, List.lookup_cons, hne]
        exact ih hrest

/-- The values of a dictionary, changed. -/
def mapValues {β : Type} (f : α → β) (d : Dict α) : Dict β :=
  d.map fun entry => (entry.1, f entry.2)

theorem mapValues_insert {β : Type} (f : α → β) (key : String) (value : α) (d : Dict α) :
    (d.insert key value).mapValues f = (d.mapValues f).insert key (f value) := by
  unfold mapValues
  induction d with
  | nil => rfl
  | cons first rest ih =>
    rw [insert, List.map_cons, insert]
    split
    · rfl
    · split
      · rfl
      · rw [List.map_cons, ih]

theorem mapValues_ofList {β : Type} (f : α → β) (entries : List (String × α)) :
    (ofList entries).mapValues f = ofList (mapValues f entries) := by
  have hfold (d : Dict α) :
      mapValues f (entries.foldl (fun d (key, value) => d.insert key value) d) =
        (mapValues f entries).foldl (fun d (key, value) => d.insert key value) (d.mapValues f) := by
    induction entries generalizing d with
    | nil => rfl
    | cons entry entries ih =>
      rw [List.foldl_cons, ih, mapValues_insert]
      rfl
  exact hfold []

theorem sorted_ofList (entries : List (String × α)) : Sorted (ofList entries) :=
  (@foldl_insert α [] (fun _ => true) entries sorted_nil).1

theorem ofList_restrict (keep : String → Bool) (entries : List (String × α)) :
    ofList (restrict keep entries) = (ofList entries).restrict keep :=
  (foldl_insert entries sorted_nil).2

/-- Where each key comes once, all entries stay. -/
theorem perm_ofList {entries : List (String × α)} (h : (entries.map (·.1)).Nodup) :
    (ofList entries).Perm entries := by
  have hlookup : ∀ entry ∈ entries, List.lookup entry.1 entries = some entry.2 := by
    intro entry hentry
    obtain ⟨before, after, rfl⟩ := List.append_of_mem hentry
    refine List.lookup_eq_some_iff.mpr ⟨before, after, rfl, ?_⟩
    intro other hother
    rw [bne_iff_ne]
    exact (ne_of_nodup_map h hother).symm
  refine (List.perm_ext_iff_of_nodup (sorted_ofList _).nodup h.of_map).mpr ?_
  rintro ⟨key, value⟩
  rw [(sorted_ofList _).mem_iff_get?, get?_ofList (f := (List.lookup · entries)) hlookup]
  constructor
  · intro hget
    rw [Option.ite_none_right_eq_some] at hget
    obtain ⟨before, after, rfl, _⟩ := List.lookup_eq_some_iff.mp hget.2
    exact List.mem_append_right before List.mem_cons_self
  · intro hmem
    have hkey : key ∈ keys entries := List.mem_map_of_mem hmem
    rw [if_pos hkey]
    exact hlookup _ hmem

/-- Where each key comes once, the order of the entries makes no difference. -/
theorem ofList_reverse {entries : List (String × α)} (h : (entries.map (·.1)).Nodup) :
    ofList entries.reverse = ofList entries := by
  apply (sorted_ofList _).eq_of_perm (sorted_ofList _)
  have hreverse : (entries.reverse.map (·.1)).Nodup := by
    rwa [List.map_reverse, List.nodup_reverse]
  exact (perm_ofList hreverse).trans (entries.reverse_perm.trans (perm_ofList h).symm)

end Dict

end PhpLint
