import DocTree.Proofs.Files.Numbering
import Mathlib.Data.List.Forall2
import Mathlib.Data.List.Perm.Subperm
import DocTree.Text.Number

/-!
Output names over whole runs. A name that is given is in use from then on, and a name is only given when
it is not in use; so files have different names, and a file keeps the one it has. The search for a number
that makes a name new ends, since different numbers make different names and only so many are in use.
-/

namespace DocTree.FileTable

variable {t t' : FileTable} {file other : FileId} {path : Path} {usage usage' : List (String × Nat)}
  {base new label : String} {m n k start : Nat}

/-! ### Names with numbers -/

theorem splitExtension_append (base : String) :
    (Path.splitExtension base).1 ++ (Path.splitExtension base).2 = base := by
  rw [Path.splitExtension]
  split
  · exact String.append_empty
  · exact String.append_empty
  · next stem extension _ hcut =>
    rw [← String.ofList_append, ← Text.eq_of_cutLast hcut, String.ofList_toList]

theorem numbered_inj : numbered base m = numbered base n ↔ m = n := by
  rw [numbered, numbered, String.append_left_inj, String.append_right_inj]
  exact Text.toString_inj

/-- A number makes a name longer. -/
theorem numbered_ne (base : String) (n : Nat) : numbered base n ≠ base := by
  intro h
  have hlength := congrArg String.length h
  nth_rewrite 2 [← splitExtension_append base] at hlength
  rw [numbered] at hlength
  simp only [String.length_append] at hlength
  have hdash : "-".length = 1 := rfl
  omega

/-! ### The search for a number -/

/-- Only so many things that differ are in a list. -/
theorem le_length_of_forall_mem {α : Type} {f : Nat → α} {l : List α}
    (hinj : ∀ i < k, ∀ j < k, f i = f j → i = j) (hmem : ∀ i < k, f i ∈ l) : k ≤ l.length := by
  have hnodup : ((List.range k).map f).Nodup :=
    List.nodup_range.map_on fun i hi j hj =>
      hinj i (List.mem_range.mp hi) j (List.mem_range.mp hj)
  have hsubset : (List.range k).map f ⊆ l := by
    intro a ha
    obtain ⟨i, hi, rfl⟩ := List.mem_map.mp ha
    exact hmem i (List.mem_range.mp hi)
  simpa using (hnodup.subperm hsubset).length_le

/-- The search for a number whose name is not in use: one number after the other is tried, without a
bound. -/
inductive Search (usage : List (String × Nat)) (base : String) : Nat → Nat → Prop where
  | found {n : Nat} (h : Assoc.contains (numbered base n) usage = false) : Search usage base n n
  | next {start n : Nat} (h : Assoc.contains (numbered base start) usage = true)
      (hrest : Search usage base (start + 1) n) : Search usage base start n

theorem Search.fresh (h : Search usage base start n) :
    Assoc.contains (numbered base n) usage = false := by
  induction h with
  | found h => exact h
  | next _ _ ih => exact ih

theorem Search.tried (h : Search usage base start n) (hstart : start ≤ m) (hm : m < n) :
    Assoc.contains (numbered base m) usage = true := by
  induction h with
  | found => exact absurd hm (Nat.not_lt.mpr hstart)
  | next h _ ih =>
    rcases Nat.eq_or_lt_of_le hstart with rfl | hstart
    · exact h
    · exact ih hstart hm

/-- Of more numbers than there are names in use, one makes a name that is not in use. -/
theorem exists_free (usage : List (String × Nat)) (base : String) (start : Nat) :
    ∃ i < usage.length + 1, Assoc.contains (numbered base (start + i)) usage = false := by
  by_contra! hall
  have hlength : usage.length + 1 ≤ (usage.map (·.1)).length :=
    le_length_of_forall_mem (f := fun i => numbered base (start + i))
      (fun i _ j _ h => Nat.add_left_cancel (numbered_inj.mp h))
      fun i hi => Assoc.contains_iff_mem.mp (Bool.not_eq_false _ ▸ hall i hi)
  rw [List.length_map] at hlength
  exact Nat.not_succ_le_self _ hlength

theorem search_of_free {tries : Nat}
    (h : ∃ i < tries, Assoc.contains (numbered base (start + i)) usage = false) :
    Search usage base start (freeNumber usage base tries start) := by
  induction tries generalizing start with
  | zero =>
    obtain ⟨i, hi, -⟩ := h
    exact absurd hi (Nat.not_lt_zero i)
  | succ tries ih =>
    rw [freeNumber]
    split
    · next hused =>
      refine .next hused (ih ?_)
      obtain ⟨i, hi, hfree⟩ := h
      cases i with
      | zero => exact absurd (hfree.symm.trans hused) Bool.false_ne_true
      | succ i => exact ⟨i, Nat.lt_of_succ_lt_succ hi, by rwa [Nat.add_right_comm, Nat.add_assoc]⟩
    · next hfree => exact .found (Bool.eq_false_iff.mpr hfree)

theorem search_freeNumber (usage : List (String × Nat)) (base : String) (start : Nat) :
    Search usage base start (freeNumber usage base (usage.length + 1) start) :=
  search_of_free (exists_free usage base start)

/-! ### A new name -/

/-- A new name for a file with some base name, and the names that are in use then. -/
inductive Coined (usage : List (String × Nat)) (base : String) :
    String → List (String × Nat) → Prop where
  | plain (h : usage.lookup base = none) : Coined usage base base (Assoc.insert base 1 usage)
  | suffixed {start n : Nat} (h : usage.lookup base = some start) (hn : Search usage base start n) :
      Coined usage base (numbered base n)
        (Assoc.insert (numbered base n) 1 (Assoc.insert base (n + 1) usage))

theorem Coined.fresh (h : Coined usage base new usage') : Assoc.contains new usage = false := by
  cases h with
  | plain h => exact Assoc.contains_eq_false.mpr h
  | suffixed _ hn => exact hn.fresh

theorem Coined.contains_iff (h : Coined usage base new usage') :
    Assoc.contains label usage' = true ↔ label = new ∨ Assoc.contains label usage = true := by
  cases h with
  | plain => exact Assoc.contains_insert
  | suffixed h =>
    rw [Assoc.contains_insert, Assoc.contains_insert]
    refine or_congr_right (or_iff_right_of_imp ?_)
    rintro rfl
    rw [Assoc.contains, h]
    rfl

/-- All numbers below the one that a name tries next make names that are in use. -/
def Counted (usage : List (String × Nat)) : Prop :=
  ∀ base k, usage.lookup base = some k → ∀ m, 0 < m → m < k →
    Assoc.contains (numbered base m) usage = true

theorem Coined.counted (h : Coined usage base new usage') (hcounted : Counted usage) :
    Counted usage' := by
  intro name k hk m hpos hm
  refine h.contains_iff.mpr ?_
  cases h with
  | plain h =>
    by_cases hname : name = base
    · rw [hname, Assoc.lookup_insert_self, Option.some.injEq] at hk
      omega
    · rw [Assoc.lookup_insert_of_ne hname] at hk
      exact .inr (hcounted name k hk m hpos hm)
  | @suffixed start n h hn =>
    by_cases hnew : name = numbered base n
    · rw [hnew, Assoc.lookup_insert_self, Option.some.injEq] at hk
      omega
    rw [Assoc.lookup_insert_of_ne hnew] at hk
    by_cases hname : name = base
    · rw [hname, Assoc.lookup_insert_self, Option.some.injEq] at hk
      rw [hname]
      rcases Nat.lt_or_ge m start with hstart | hstart
      · exact .inr (hcounted base start h m hpos hstart)
      · rcases Nat.eq_or_lt_of_le (Nat.le_of_lt_succ (hk ▸ hm)) with rfl | hlt
        · exact .inl rfl
        · exact .inr (hn.tried hstart hlt)
    · rw [Assoc.lookup_insert_of_ne hname] at hk
      exact .inr (hcounted name k hk m hpos hm)

/-! ### What asking for a name does -/

/-- What asking for the name of a file does: nothing if the file is not registered or has a name, and else
the file gets a new name. -/
inductive Naming (t : FileTable) (file : FileId) : FileTable × Option String → Prop where
  | unknown (h : t.path? file = none) : Naming t file (t, none)
  | kept {path : Path} {name : String} (hpath : t.path? file = some path)
      (h : t.names.lookup file = some name) : Naming t file (t, some name)
  | coined {path : Path} {new : String} {usage : List (String × Nat)} (hpath : t.path? file = some path)
      (h : t.names.lookup file = none) (hnew : Coined t.usage path.baseName new usage) :
      Naming t file (⟨t.paths, t.owners, t.owned, Assoc.insert file new t.names, usage⟩, some new)

theorem naming_name (t : FileTable) (file : FileId) : Naming t file (t.name file) := by
  rw [FileTable.name]
  cases hpath : t.path? file with
  | none => exact .unknown hpath
  | some path =>
    cases hname : t.names.lookup file with
    | some name => exact .kept hpath hname
    | none =>
      dsimp only
      cases hbase : t.usage.lookup path.baseName with
      | none => exact .coined hpath hname (.plain hbase)
      | some start => exact .coined hpath hname (.suffixed hbase (search_freeNumber ..))

theorem name_of_lookup (hpath : t.path? file = some path) (h : t.names.lookup file = some label) :
    t.name file = (t, some label) := by
  rw [FileTable.name, hpath, h]

/-- A file that gets an answer is registered, and the answer is kept. -/
theorem of_name_eq_some (h : (t.name file).2 = some label) :
    (∃ path, t.path? file = some path) ∧ (t.name file).1.names.lookup file = some label := by
  have hnaming := naming_name t file
  generalize t.name file = answer at h hnaming
  cases hnaming with
  | unknown => cases h
  | kept hpath hname => exact ⟨⟨_, hpath⟩, hname.trans h⟩
  | coined hpath => exact ⟨⟨_, hpath⟩, (Assoc.lookup_insert_self ..).trans h⟩

/-- A file gets an answer just when it is registered. -/
theorem isSome_name (t : FileTable) (file : FileId) :
    (t.name file).2.isSome = (t.path? file).isSome := by
  have hnaming := naming_name t file
  generalize t.name file = answer at hnaming
  cases hnaming with
  | unknown h => rw [h]; rfl
  | kept hpath => rw [hpath]; rfl
  | coined hpath => rw [hpath]; rfl

/-! ### Names that are given -/

theorem names_register (t : FileTable) (text : String) :
    (t.register text).1.names = t.names ∧ (t.register text).1.usage = t.usage := by
  simp only [register]
  split <;> exact ⟨rfl, rfl⟩

theorem names_setOwner (t : FileTable) (file : FileId) (id : ReflectionId) :
    (t.setOwner file id).names = t.names ∧ (t.setOwner file id).usage = t.usage := by
  rw [setOwner]
  split <;> exact ⟨rfl, rfl⟩

/-- A change leaves the names that are given and those in use as they are. -/
theorem names_perform (t : FileTable) (c : Command) :
    (t.perform c).names = t.names ∧ (t.perform c).usage = t.usage := by
  cases c with
  | register text => exact names_register t text
  | registerLink source link => exact names_register t _
  | registerOwned text id =>
    obtain ⟨hnames, husage⟩ := names_register t text
    obtain ⟨hnames', husage'⟩ := names_setOwner (t.register text).1 (t.register text).2.file id
    exact ⟨hnames'.trans hnames, husage'.trans husage⟩
  | setOwner file id => exact names_setOwner t file id
  | disown id =>
    rw [perform, disown]
    split <;> exact ⟨rfl, rfl⟩

theorem lookup_names_name (h : t.names.lookup file = some label) (other : FileId) :
    (t.name other).1.names.lookup file = some label := by
  have hnaming := naming_name t other
  generalize t.name other = answer at hnaming
  cases hnaming with
  | unknown => exact h
  | kept => exact h
  | coined _ hnone =>
    refine (Assoc.lookup_insert_of_ne ?_ ..).trans h
    rintro rfl
    exact Option.some_ne_none _ (h.symm.trans hnone)

/-- A name once given stays. -/
theorem lookup_names_after (h : t.names.lookup file = some label) (rs : List Request) :
    (t.after rs).names.lookup file = some label :=
  after_induction (P := fun t => t.names.lookup file = some label)
    (fun t c _ h => (names_perform t c).1 ▸ h) (fun _ other h => lookup_names_name h other) h

/-! ### Names that differ -/

/-- The names in use are those that files have, files have different names and are registered, and
numbers are tried in turn. -/
structure Labelled (t : FileTable) : Prop where
  used : ∀ name, Assoc.contains name t.usage = true ↔ ∃ file, t.names.lookup file = some name
  distinct : ∀ file other name, t.names.lookup file = some name → t.names.lookup other = some name →
    file = other
  registered : ∀ file name, t.names.lookup file = some name → ∃ path, t.path? file = some path
  counted : Counted t.usage

theorem labelled_empty : empty.Labelled where
  used name := ⟨fun h => absurd h Bool.false_ne_true, fun ⟨_, h⟩ => by cases h⟩
  distinct file other name h := by cases h
  registered file name h := by cases h
  counted base k h := by cases h

theorem Labelled.perform (h : t.Labelled) (c : Command) : (t.perform c).Labelled where
  used := by
    rw [(names_perform t c).1, (names_perform t c).2]
    exact h.used
  distinct := by
    rw [(names_perform t c).1]
    exact h.distinct
  registered file name hname := by
    rw [(names_perform t c).1] at hname
    obtain ⟨path, hpath⟩ := h.registered file name hname
    exact ⟨path, path?_of_extension (prefix_perform t c) hpath⟩
  counted := by
    rw [(names_perform t c).2]
    exact h.counted

theorem Labelled.coined (h : t.Labelled) (hpath : t.path? file = some path)
    (hnone : t.names.lookup file = none) (hnew : Coined t.usage base new usage) :
    Labelled ⟨t.paths, t.owners, t.owned, Assoc.insert file new t.names, usage⟩ := by
  have hother {other : FileId} {name : String} (hname : t.names.lookup other = some name) :
      other ≠ file := by
    rintro rfl
    exact Option.some_ne_none _ (hname.symm.trans hnone)
  have hfresh {other : FileId} : t.names.lookup other ≠ some new := fun hname =>
    Bool.false_ne_true (hnew.fresh.symm.trans ((h.used new).mpr ⟨other, hname⟩))
  -- Who has a name now had it before, or is the file that got the new one.
  have hlookup {other : FileId} {name : String}
      (hname : (Assoc.insert file new t.names).lookup other = some name) :
      other = file ∧ name = new ∨ t.names.lookup other = some name := by
    by_cases hfile : other = file
    · rw [hfile, Assoc.lookup_insert_self] at hname
      exact .inl ⟨hfile, (Option.some.inj hname).symm⟩
    · exact .inr (Assoc.lookup_insert_of_ne hfile new t.names ▸ hname)
  constructor
  · intro name
    rw [hnew.contains_iff, h.used]
    constructor
    · rintro (rfl | ⟨other, hname⟩)
      · exact ⟨file, Assoc.lookup_insert_self ..⟩
      · exact ⟨other, (Assoc.lookup_insert_of_ne (hother hname) ..).trans hname⟩
    · rintro ⟨other, hname⟩
      exact (hlookup hname).imp (·.2) fun hname => ⟨other, hname⟩
  · intro a b name ha hb
    rcases hlookup ha with ⟨hfile, hname⟩ | ha <;> rcases hlookup hb with ⟨hfile', hname'⟩ | hb
    · exact hfile.trans hfile'.symm
    · exact absurd (hname ▸ hb) hfresh
    · exact absurd (hname' ▸ ha) hfresh
    · exact h.distinct a b name ha hb
  · intro other name hname
    rcases hlookup hname with ⟨rfl, -⟩ | hname
    · exact ⟨path, hpath⟩
    · exact h.registered other name hname
  · exact hnew.counted h.counted

theorem Labelled.name (h : t.Labelled) (file : FileId) : (t.name file).1.Labelled := by
  have hnaming := naming_name t file
  generalize t.name file = answer at hnaming
  cases hnaming with
  | unknown => exact h
  | kept => exact h
  | coined hpath hnone hnew => exact h.coined hpath hnone hnew

theorem Labelled.after (h : t.Labelled) (rs : List Request) : (t.after rs).Labelled :=
  after_induction (fun _ c _ h => h.perform c) (fun _ file h => h.name file) h

/-- No number that is tried is greater than the number of files. -/
theorem Labelled.le_size (h : t.Labelled) (hk : t.usage.lookup base = some k) : k ≤ t.size := by
  -- Number zero stands for the name without a number, which is in use too.
  have hused : ∀ i : Nat, ∃ file, i < k →
      t.names.lookup file = some (if i = 0 then base else numbered base i) := by
    intro i
    by_cases hi : i < k
    · have hcontains : Assoc.contains (if i = 0 then base else numbered base i) t.usage = true := by
        split
        · rw [Assoc.contains, hk]
          rfl
        · next hzero => exact h.counted base k hk i (Nat.pos_of_ne_zero hzero) hi
      exact ((h.used _).mp hcontains).imp fun file hfile _ => hfile
    · exact ⟨0, fun hi' => absurd hi' hi⟩
  choose f hf using hused
  have hlength : k ≤ (t.entries.map (·.1)).length := by
    refine le_length_of_forall_mem (f := f) (fun i hi j hj heq => ?_) fun i hi => ?_
    · have hname := Option.some.inj ((hf i hi).symm.trans (heq ▸ hf j hj))
      split at hname <;> split at hname
      · next hi hj => exact hi.trans hj.symm
      · exact absurd hname.symm (numbered_ne base j)
      · exact absurd hname (numbered_ne base i)
      · exact numbered_inj.mp hname
    · obtain ⟨path, hpath⟩ := h.registered _ _ (hf i hi)
      exact List.mem_map.mpr ⟨_, mem_entries.mpr hpath, rfl⟩
  rwa [map_fst_entries, List.length_range'] at hlength

/-! ### The names of all files that no reflection owns -/

/-- Files that are named one after the other are entered one after the other: no entry takes the place of
another. -/
theorem Labelled.outputs (h : t.Labelled) {entries : List (FileId × Path)}
    {before : List (String × Path)} (hnodup : (entries.map (·.1)).Nodup)
    (hpaths : ∀ entry ∈ entries, t.path? entry.1 = some entry.2)
    (hbefore : ∀ out ∈ before, ∃ file ∉ entries.map (·.1), t.names.lookup file = some out.1) :
    ∃ outs, (entries.foldl nameNext (t, before)).2 = before ++ outs ∧
      List.Forall₂ (fun entry out => out.2 = entry.2 ∧
        (entries.foldl nameNext (t, before)).1.names.lookup entry.1 = some out.1) entries outs := by
  -- The names put out so far belong to files that do not come again.
  induction entries generalizing t before with
  | nil => exact ⟨[], (List.append_nil _).symm, .nil⟩
  | cons entry rest ih =>
    obtain ⟨hfirst, hrest⟩ := List.forall_mem_cons.mp hpaths
    obtain ⟨hnotin, hnodup⟩ := List.nodup_cons.mp hnodup
    obtain ⟨name, hanswer⟩ := Option.isSome_iff_exists.mp
      ((isSome_name t entry.1).trans (hfirst ▸ rfl))
    have hname := (of_name_eq_some hanswer).2
    have hlabelled := h.name entry.1
    have hnew : name ∉ before.map (·.1) := by
      intro hmem
      obtain ⟨out, hout, rfl⟩ := List.mem_map.mp hmem
      obtain ⟨other, hother, hlookup⟩ := hbefore out hout
      have heq := hlabelled.distinct _ _ _ (lookup_names_name hlookup entry.1) hname
      exact hother (heq ▸ List.mem_cons_self)
    have hnext : nameNext (t, before) entry = ((t.name entry.1).1, before ++ [(name, entry.2)]) := by
      rw [nameNext, hanswer, Option.elim_some, Assoc.insert_of_not_mem hnew]
    have hpaths' : ∀ e ∈ rest, (t.name entry.1).1.path? e.1 = some e.2 := fun e he =>
      ((sameFiles_name t entry.1).path? e.1).trans (hrest e he)
    have hbefore' : ∀ out ∈ before ++ [(name, entry.2)], ∃ file ∉ rest.map (·.1),
        (t.name entry.1).1.names.lookup file = some out.1 := by
      intro out hout
      rcases List.mem_append.mp hout with hout | hout
      · obtain ⟨other, hother, hlookup⟩ := hbefore out hout
        exact ⟨other, fun hmem => hother (List.mem_cons_of_mem _ hmem),
          lookup_names_name hlookup entry.1⟩
      · obtain rfl := List.mem_singleton.mp hout
        exact ⟨entry.1, hnotin, hname⟩
    obtain ⟨outs, houts, hall⟩ := ih hlabelled hnodup hpaths' hbefore'
    rw [List.foldl_cons, hnext]
    refine ⟨(name, entry.2) :: outs, ?_, .cons ⟨rfl, ?_⟩ hall⟩
    · rw [houts, List.append_assoc, List.singleton_append]
    · exact foldl_nameNext_induction (P := fun t => t.names.lookup entry.1 = some name)
        (fun _ other h => lookup_names_name h other) rest hname

/-- Files that differ are entered under names that differ. -/
theorem Labelled.nodup_outputs (h : t.Labelled) {entries : List (FileId × Path)}
    {outs : List (String × Path)} (hnodup : (entries.map (·.1)).Nodup)
    (hall : List.Forall₂ (fun entry out => out.2 = entry.2 ∧
      t.names.lookup entry.1 = some out.1) entries outs) : (outs.map (·.1)).Nodup := by
  have hnames : (outs.map (·.1)).map some = (entries.map (·.1)).map (t.names.lookup ·) := by
    clear hnodup
    induction hall with
    | nil => rfl
    | cons hfirst _ ih => rw [List.map_cons, List.map_cons, List.map_cons, List.map_cons, ih, hfirst.2]
  refine List.Nodup.of_map some (hnames ▸ hnodup.map_on fun file hfile other _ heq => ?_)
  obtain ⟨name, -, hname⟩ := List.mem_map.mp (hnames ▸ List.mem_map_of_mem hfile)
  exact h.distinct file other name hname.symm (heq ▸ hname.symm)

theorem mem_unowned : (file, path) ∈ t.unowned ↔
    t.path? file = some path ∧ t.owners.lookup file = none := by
  rw [unowned, List.mem_filter, mem_entries, Bool.not_eq_true', Assoc.contains_eq_false]

theorem pairwise_unowned (t : FileTable) : (t.unowned.map (·.1)).Pairwise (· < ·) := by
  have hentries : (t.entries.map (·.1)).Pairwise (· < ·) := by
    rw [map_fst_entries]
    exact List.pairwise_lt_range'
  exact hentries.sublist (List.filter_sublist.map _)

/-- In every run each registered file gets an answer when its name is asked for, after a search that
ends; the file keeps that name, and no other file ever gets it. No number that is tried is greater than
the number of files. All files that no reflection owns are listed in the order of their numbers, one entry
for each, with their paths under their names, and no two of the names are the same. -/
theorem naming_run (rs : List Request) :
    let t := empty.after rs
    (∀ file, Naming t file (t.name file) ∧ (t.name file).2.isSome = (t.path? file).isSome) ∧
    (∀ file name, (t.name file).2 = some name → ∀ more,
      (((t.name file).1.after more).name file).2 = some name ∧
      ∀ other ≠ file, (((t.name file).1.after more).name other).2 ≠ some name) ∧
    (∀ name k, t.usage.lookup name = some k → k ≤ t.size) ∧
    (∀ file path, (file, path) ∈ t.unowned ↔ t.path? file = some path ∧ t.owners.lookup file = none) ∧
    (t.unowned.map (·.1)).Pairwise (· < ·) ∧
    List.Forall₂ (fun entry out => out.2 = entry.2 ∧
      (t.outputNames.1.name entry.1).2 = some out.1) t.unowned t.outputNames.2 ∧
    (t.outputNames.2.map (·.1)).Nodup := by
  intro t
  have hlabelled : t.Labelled := labelled_empty.after rs
  have hnodup : (t.unowned.map (·.1)).Nodup := (pairwise_unowned t).imp Nat.ne_of_lt
  have hpaths : ∀ entry ∈ t.unowned, t.path? entry.1 = some entry.2 := fun _ h => (mem_unowned.mp h).1
  obtain ⟨outs, houts, hall⟩ := hlabelled.outputs hnodup hpaths (List.forall_mem_nil _)
  rw [← outputNames_eq] at houts hall
  rw [List.nil_append] at houts
  subst houts
  refine ⟨fun file => ⟨naming_name t file, isSome_name t file⟩, fun file name hname more => ?_,
    fun name k hk => hlabelled.le_size hk, fun file path => mem_unowned, pairwise_unowned t, ?_, ?_⟩
  · obtain ⟨⟨path, hpath⟩, hlookup⟩ := of_name_eq_some hname
    have hlater := lookup_names_after hlookup more
    have hkept := name_of_lookup (path?_of_extension (prefix_after _ more)
      (((sameFiles_name t file).path? file).trans hpath)) hlater
    refine ⟨congrArg Prod.snd hkept, fun other hne hother => hne ?_⟩
    exact (((hlabelled.name file).after more).name other).distinct _ _ _ (of_name_eq_some hother).2
      (lookup_names_name hlater other)
  · have hboth := (List.forall₂_and_left _ _).mpr ⟨hpaths, hall⟩
    refine hboth.imp fun entry out ⟨hpath, hsame, hlookup⟩ => ⟨hsame, ?_⟩
    exact congrArg Prod.snd (name_of_lookup
      (((sameFiles_outputNames t).path? entry.1).trans hpath) hlookup)
  · exact (hlabelled.after [.outputNames]).nodup_outputs hnodup hall

theorem naming_run_alike :
    let t := empty.after [.change (.register "/a/x.png"), .change (.register "/b/x.png"), .name 1, .name 2,
      .change (.register "/c/x-1.png"), .change (.setOwner 1 4)]
    (t.name 3).2 = some "x-1-1.png" ∧
      (∀ more, (((t.name 3).1.after more).name 3).2 = some "x-1-1.png" ∧
        ∀ other ≠ 3, (((t.name 3).1.after more).name other).2 ≠ some "x-1-1.png") ∧
      t.outputNames.2.map (·.1) = ["x-1.png", "x-1-1.png"] ∧ (t.outputNames.2.map (·.1)).Nodup :=
  have hrun := naming_run [.change (.register "/a/x.png"), .change (.register "/b/x.png"), .name 1, .name 2,
    .change (.register "/c/x-1.png"), .change (.setOwner 1 4)]
  ⟨by decide +kernel, hrun.2.1 3 "x-1-1.png" (by decide +kernel), by decide +kernel, hrun.2.2.2.2.2.2⟩

end DocTree.FileTable
