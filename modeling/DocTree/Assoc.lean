/-!
Tables in the order of insertion, as lists of pairs. Writing a key that is present keeps its place;
a new key goes to the end; erasing a key keeps the order of the others. Reading is `List.lookup`.
-/

namespace DocTree.Assoc

variable {κ ν : Type} [DecidableEq κ]

/-- Set the value of a key: in place when the key is present, else at the end. -/
def insert (key : κ) (value : ν) : List (κ × ν) → List (κ × ν)
  | [] => [(key, value)]
  | (k, v) :: rest => if k = key then (key, value) :: rest else (k, v) :: insert key value rest

/-- Drop a key. -/
def erase (key : κ) (table : List (κ × ν)) : List (κ × ν) :=
  table.filter fun entry => entry.1 ≠ key

/-- Some entry has this key. -/
def contains (key : κ) (table : List (κ × ν)) : Bool :=
  (table.lookup key).isSome

/-- Every pair written in turn: a repeated key keeps its first place and takes its last value. -/
def ofList (pairs : List (κ × ν)) : List (κ × ν) :=
  pairs.foldl (fun table (k, v) => insert k v table) []

/-! ### Reading what was written -/

theorem lookup_insert_self (key : κ) (value : ν) (table : List (κ × ν)) :
    (insert key value table).lookup key = some value := by
  induction table with
  | nil => simp [insert]
  | cons entry rest ih =>
    obtain ⟨k, v⟩ := entry
    by_cases hk : k = key
    · simp [insert, hk]
    · have : (key == k) = false := by simpa using fun h => hk h.symm
      simp [insert, hk, List.lookup_cons, this, ih]

theorem lookup_insert_of_ne {key other : κ} (h : other ≠ key) (value : ν) (table : List (κ × ν)) :
    (insert key value table).lookup other = table.lookup other := by
  induction table with
  | nil => simp [insert, List.lookup_cons, beq_eq_false_iff_ne.mpr h]
  | cons entry rest ih =>
    obtain ⟨k, v⟩ := entry
    by_cases hk : k = key
    · subst hk; simp [insert, List.lookup_cons, beq_eq_false_iff_ne.mpr h]
    · simp only [insert, hk, if_false, List.lookup_cons, ih]

theorem lookup_erase_self (key : κ) (table : List (κ × ν)) :
    (erase key table).lookup key = none := by
  simp only [List.lookup_eq_none_iff, erase, List.mem_filter]
  intro entry h
  simpa using fun heq => (of_decide_eq_true h.2) heq.symm

theorem lookup_erase_of_ne {key other : κ} (h : other ≠ key) (table : List (κ × ν)) :
    (erase key table).lookup other = table.lookup other := by
  induction table with
  | nil => rfl
  | cons entry rest ih =>
    obtain ⟨k, v⟩ := entry
    rw [erase] at ih ⊢
    by_cases hk : k = key
    · subst hk
      have hne : (other == k) = false := beq_eq_false_iff_ne.mpr h
      rw [List.filter_cons_of_neg (by simp), List.lookup_cons, hne, ih]
    · rw [List.filter_cons_of_pos (by simpa using hk), List.lookup_cons, List.lookup_cons, ih]

/-! ### What a table holds -/

theorem mem_insert {key : κ} {value : ν} {table : List (κ × ν)} {entry : κ × ν}
    (h : entry ∈ insert key value table) : entry = (key, value) ∨ entry ∈ table := by
  induction table with
  | nil => exact .inl (List.mem_singleton.mp h)
  | cons first rest ih =>
    obtain ⟨k, v⟩ := first
    rw [insert] at h
    split at h
    · rcases List.mem_cons.mp h with rfl | h
      · exact .inl rfl
      · exact .inr (List.mem_cons_of_mem _ h)
    · rcases List.mem_cons.mp h with rfl | h
      · exact .inr (List.mem_cons_self ..)
      · exact (ih h).imp_right (List.mem_cons_of_mem _)

/-- What is in a table was there or was written. -/
theorem mem_foldl_insert {entries table : List (κ × ν)} {entry : κ × ν}
    (h : entry ∈ entries.foldl (fun t e => insert e.1 e.2 t) table) :
    entry ∈ entries ∨ entry ∈ table := by
  induction entries generalizing table with
  | nil => exact .inr h
  | cons first rest ih =>
    rcases ih h with h | h
    · exact .inl (List.mem_cons_of_mem _ h)
    · rcases mem_insert h with rfl | h
      · exact .inl (List.mem_cons_self ..)
      · exact .inr h

theorem mem_of_lookup {key : κ} {value : ν} {table : List (κ × ν)}
    (h : table.lookup key = some value) : (key, value) ∈ table := by
  obtain ⟨before, after, rfl, -⟩ := List.lookup_eq_some_iff.mp h
  exact List.mem_append_right _ (List.mem_cons_self ..)

/-- A key that was there or was written is found. -/
theorem isSome_lookup_foldl_insert {entries table : List (κ × ν)} {key : κ}
    (h : (table.lookup key).isSome = true ∨ key ∈ entries.map (·.1)) :
    ((entries.foldl (fun t e => insert e.1 e.2 t) table).lookup key).isSome = true := by
  induction entries generalizing table with
  | nil => exact h.resolve_right List.not_mem_nil
  | cons first rest ih =>
    refine ih ?_
    by_cases hkey : key = first.1
    · rw [hkey, lookup_insert_self]
      exact .inl rfl
    · rw [lookup_insert_of_ne hkey]
      exact h.imp_right fun hmem => (List.mem_cons.mp hmem).resolve_left hkey

/-! ### Keys -/

/-- Where no key stands twice, a key is found with what stands beside it. -/
theorem lookup_eq_some_iff {key : κ} {value : ν} {table : List (κ × ν)}
    (h : (table.map (·.1)).Nodup) : table.lookup key = some value ↔ (key, value) ∈ table := by
  refine ⟨mem_of_lookup, fun hmem => ?_⟩
  obtain ⟨before, after, rfl⟩ := List.append_of_mem hmem
  refine List.lookup_eq_some_iff.mpr ⟨before, after, rfl, fun entry hentry => ?_⟩
  rw [List.map_append, List.nodup_append] at h
  exact bne_iff_ne.mpr (h.2.2 _ (List.mem_map_of_mem hentry) key (List.mem_cons_self ..)).symm

theorem contains_eq_false {key : κ} {table : List (κ × ν)} :
    contains key table = false ↔ table.lookup key = none := by
  rw [contains, Option.isSome_eq_false_iff, Option.isNone_iff_eq_none]

theorem contains_iff_mem {key : κ} {table : List (κ × ν)} :
    contains key table = true ↔ key ∈ table.map (·.1) := by
  constructor
  · intro h
    obtain ⟨value, hvalue⟩ := Option.isSome_iff_exists.mp h
    exact List.mem_map.mpr ⟨_, mem_of_lookup hvalue, rfl⟩
  · intro h
    obtain ⟨entry, hentry, rfl⟩ := List.mem_map.mp h
    rw [← Bool.not_eq_false, contains_eq_false, List.lookup_eq_none_iff]
    exact fun hnone => by simpa using hnone entry hentry

theorem contains_insert {key other : κ} {value : ν} {table : List (κ × ν)} :
    contains other (insert key value table) = true ↔ other = key ∨ contains other table = true := by
  rw [contains, contains]
  by_cases h : other = key
  · rw [h, lookup_insert_self]
    simp
  · rw [lookup_insert_of_ne h]
    simp [h]

theorem insert_of_not_mem {key : κ} {value : ν} {table : List (κ × ν)}
    (h : key ∉ table.map (·.1)) : insert key value table = table ++ [(key, value)] := by
  induction table with
  | nil => rfl
  | cons entry rest ih =>
    obtain ⟨k, v⟩ := entry
    simp only [List.map_cons, List.mem_cons, not_or] at h
    rw [insert, if_neg (Ne.symm h.1), ih h.2, List.cons_append]

theorem nodup_insert {key : κ} {value : ν} {table : List (κ × ν)} (h : (table.map (·.1)).Nodup) :
    ((insert key value table).map (·.1)).Nodup := by
  by_cases hkey : key ∈ table.map (·.1)
  · have hsame : (insert key value table).map (·.1) = table.map (·.1) := by
      clear h
      induction table with
      | nil => cases hkey
      | cons entry rest ih =>
        obtain ⟨k, v⟩ := entry
        rw [insert]
        split
        · next heq => simp [heq]
        · next hne =>
          rw [List.map_cons, List.map_cons, ih ((List.mem_cons.mp hkey).resolve_left (Ne.symm hne))]
    rw [hsame]
    exact h
  · rw [insert_of_not_mem hkey, List.map_append]
    refine List.nodup_append.mpr ⟨h, List.pairwise_singleton _ _, fun a ha b hb heq => hkey ?_⟩
    obtain rfl : b = key := List.mem_singleton.mp hb
    exact heq ▸ ha

theorem nodup_erase (key : κ) {table : List (κ × ν)} (h : (table.map (·.1)).Nodup) :
    ((erase key table).map (·.1)).Nodup :=
  h.sublist (List.filter_sublist.map _)

/-- Every pair of a list written in turn. -/
theorem nodup_foldl_insert (entries : List (κ × ν)) {table : List (κ × ν)}
    (h : (table.map (·.1)).Nodup) :
    ((entries.foldl (fun t e => insert e.1 e.2 t) table).map (·.1)).Nodup := by
  induction entries generalizing table with
  | nil => exact h
  | cons entry rest ih => exact ih (nodup_insert h)

/-- Keys that differ are written one after the other. -/
theorem foldl_insert_of_nodup {entries table : List (κ × ν)}
    (h : ((table ++ entries).map (·.1)).Nodup) :
    entries.foldl (fun t e => insert e.1 e.2 t) table = table ++ entries := by
  induction entries generalizing table with
  | nil => rw [List.append_nil]; rfl
  | cons entry rest ih =>
    have hkey : entry.1 ∉ table.map (·.1) := by
      rw [List.map_append, List.nodup_append] at h
      exact fun hmem => h.2.2 entry.1 hmem entry.1 (List.mem_cons_self ..) rfl
    rw [List.foldl_cons, insert_of_not_mem hkey, ih, List.append_assoc, List.singleton_append]
    rwa [List.append_assoc, List.singleton_append]

end DocTree.Assoc
