import Mathlib.Data.Finset.Card
import Mathlib.Data.List.TakeWhile
import DocTree.Proofs.Registry.Command
import DocTree.Proofs.Registry.Page
import DocTree.Text.Number

/-!
Anchors that are asked for one after the other, with nothing else done in between. An anchor is the
stem of a reflection, followed by how many other reflections of its page with the same stem, but for
the case of letters, were asked for before it.
-/

namespace DocTree.Project

variable {p q : Project} {i j page : ReflectionId} {r : Reflection}

/-! ### Texts of anchors -/

/-- A text and the number that is set behind it, if any. -/
def joined (head : String) (number : Option Nat) : String :=
  number.elim head fun n => head ++ "-" ++ toString n

/-- What the anchor of a reflection begins with: the letters of its name, or its number where the
name has none. -/
def stem (r : Reflection) : String :=
  if (slug r.name).isEmpty then "reflection-" ++ r.id.text else slug r.name

section Texts

variable {c : Char} {a b : String} {m n : Option Nat}

theorem toLower_eq_dash : c.toLower = '-' ↔ c = '-' := by
  delta Char.toLower
  split
  · next h =>
    have hle := UInt32.le_iff_toNat_le.mp h.1
    constructor
    · intro heq
      have hval := congrArg (·.val.toNat) heq
      have hge := UInt32.le_iff_toNat_le.mp h.2
      simp at hval hle hge
      omega
    · rintro rfl
      exact absurd h (by decide)
  · rfl

theorem toLower_of_isDigit (h : c.isDigit = true) : c.toLower = c := by
  delta Char.toLower
  split
  · next hupper =>
    have hge := UInt32.le_iff_toNat_le.mp hupper.1
    simp only [Char.isDigit, Bool.and_eq_true, decide_eq_true_eq] at h
    have hle := UInt32.le_iff_toNat_le.mp h.2
    simp at hge hle
    omega
  · rfl

theorem toList_lower (a : String) : (Text.lower a).toList = a.toList.map Char.toLower :=
  String.toList_ofList

theorem toList_joined_some (a : String) (n : Nat) :
    (joined a (some n)).toList = a.toList ++ '-' :: (toString n).toList := by
  rw [joined, Option.elim_some, String.toList_append, String.toList_append, List.append_assoc]
  rfl

theorem lower_joined (a : String) (n : Option Nat) :
    Text.lower (joined a n) = joined (Text.lower a) n := by
  cases n with
  | none => rfl
  | some n =>
    have hdigits : (toString n).toList.map Char.toLower = (toString n).toList.map id :=
      List.map_congr_left fun _ hc => toLower_of_isDigit (Text.isDigit_of_mem_toString hc)
    apply String.toList_inj.mp
    rw [toList_lower, toList_joined_some, toList_joined_some, toList_lower, List.map_append,
      List.map_cons, hdigits, List.map_id]
    rfl

/-- The number can be told from the text before it, where that has no dash. -/
theorem joined_eq_iff (ha : '-' ∉ a.toList) (hb : '-' ∉ b.toList) :
    joined a m = joined b n ↔ a = b ∧ m = n := by
  refine ⟨fun h => ?_, fun h => h.1 ▸ h.2 ▸ rfl⟩
  have hdash (a : String) (k : Nat) : '-' ∈ (joined a (some k)).toList := by
    rw [toList_joined_some]
    exact List.mem_append_right _ (List.mem_cons_self ..)
  have hlist := congrArg String.toList h
  cases m with
  | none =>
    cases n with
    | none => exact ⟨h, rfl⟩
    | some k => exact absurd (hlist.symm ▸ hdash b k : '-' ∈ (joined a none).toList) ha
  | some k =>
    cases n with
    | none => exact absurd (hlist ▸ hdash a k : '-' ∈ (joined b none).toList) hb
    | some l =>
      have hdigits : '-' ∉ (toString k).toList := fun hc =>
        absurd (Text.isDigit_of_mem_toString hc) (by decide)
      rw [toList_joined_some, toList_joined_some, List.append_cons_inj_of_notMem ha hdigits] at hlist
      obtain ⟨hhead, -, htail⟩ := hlist
      have hnumber : k = l := Text.toString_inj.mp (String.toList_inj.mp htail)
      exact ⟨String.toList_inj.mp hhead, congrArg some hnumber⟩

theorem dash_not_mem_slug (name : String) : '-' ∉ (Text.lower (slug name)).toList := by
  intro h
  rw [toList_lower, List.mem_map] at h
  obtain ⟨c, hc, hlower⟩ := h
  obtain rfl := toLower_eq_dash.mp hlower
  rw [slug, String.toList_ofList, List.mem_filter] at hc
  exact absurd hc.2 (by decide)

end Texts

/-! ### Anchors that were asked for -/

/-- Those of some reflections that are shown on a page and whose anchors begin with a text, but for
the case of letters. -/
def rivals (p : Project) (asked : List ReflectionId) (page : ReflectionId) (key : String) :
    Finset ReflectionId :=
  asked.toFinset.filter fun j =>
    (p.get? j).any fun s => p.page s = page ∧ Text.lower (stem s) = key

/-- How many they are, if there are any. -/
def counted (p : Project) (asked : List ReflectionId) (page : ReflectionId) (key : String) :
    Option Nat :=
  if (p.rivals asked page key).card = 0 then none else some (p.rivals asked page key).card

/-- How many others whose anchors begin alike were asked for before a reflection, if any. -/
def earlier (p : Project) (calls : List ReflectionId) (r : Reflection) : Option Nat :=
  p.counted (calls.takeWhile (· ≠ r.id)) (p.page r) (Text.lower (stem r))

/-- The anchor of a reflection when anchors are asked for in some order. -/
def anchorAmong (p : Project) (calls : List ReflectionId) (i : ReflectionId) : Option String :=
  (p.get? i).map fun r => joined (stem r) (p.earlier calls r)

/-- Anchors asked for one after the other, with the answers. -/
def anchors (p : Project) : List ReflectionId → Project × List (Option String)
  | [] => (p, [])
  | i :: calls =>
    let rest := (p.anchor i).1.anchors calls
    (rest.1, (p.anchor i).2 :: rest.2)

/-- No anchor was asked for so far. -/
def Unanchored (p : Project) : Prop :=
  ∀ i r, p.get? i = some r → r.anchor = none ∧ r.anchorCounts = []

/-- All of a reflection but the anchors that were given. -/
def unanchored (r : Reflection) : Reflection := { r with anchor := none, anchorCounts := [] }

/-- One project is another after anchors of some reflections were asked for. -/
structure Asked (p : Project) (done : List ReflectionId) (q : Project) : Prop where
  rest : ∀ j, (q.get? j).map unanchored = (p.get? j).map unanchored
  anchor : ∀ j s, q.get? j = some s → s.anchor = if j ∈ done then p.anchorAmong done j else none
  counts : ∀ j s key, q.get? j = some s → s.anchorCounts.lookup key = p.counted done j key

variable {calls done more : List ReflectionId} {key : String}

/-! ### What is counted -/

theorem mem_rivals : j ∈ p.rivals done page key ↔
    j ∈ done ∧ ∃ s, p.get? j = some s ∧ p.page s = page ∧ Text.lower (stem s) = key := by
  rw [rivals, Finset.mem_filter, List.mem_toFinset, Option.any_eq_true]
  simp only [decide_eq_true_eq]

theorem counted_eq_none : p.counted done page key = none ↔ p.rivals done page key = ∅ := by
  rw [counted, ← Finset.card_eq_zero]
  split <;> simp_all

theorem counted_nil : p.counted [] page key = none :=
  counted_eq_none.mpr rfl

theorem counted_congr {others : List ReflectionId}
    (h : p.rivals done page key = p.rivals others page key) :
    p.counted done page key = p.counted others page key := by
  rw [counted, counted, h]

/-- What is asked for once more, or is no rival, does not count. -/
theorem counted_append_of_not (h : i ∈ done ∨
    ¬ ∃ s, p.get? i = some s ∧ p.page s = page ∧ Text.lower (stem s) = key) :
    p.counted (done ++ [i]) page key = p.counted done page key := by
  refine counted_congr (Finset.ext fun j => ?_)
  rw [mem_rivals, mem_rivals, List.mem_append, List.mem_singleton]
  constructor
  · rintro ⟨hj | rfl, hs⟩
    · exact ⟨hj, hs⟩
    · exact ⟨h.resolve_right (not_not_intro hs), hs⟩
  · exact fun ⟨hj, hs⟩ => ⟨.inl hj, hs⟩

/-- A new rival is one more. -/
theorem counted_append_of_rival (hr : p.get? i = some r) (hi : i ∉ done) :
    p.counted (done ++ [i]) (p.page r) (Text.lower (stem r)) =
      some ((p.counted done (p.page r) (Text.lower (stem r))).elim 1 (· + 1)) := by
  have hinsert : p.rivals (done ++ [i]) (p.page r) (Text.lower (stem r)) =
      insert i (p.rivals done (p.page r) (Text.lower (stem r))) := by
    refine Finset.ext fun j => ?_
    rw [Finset.mem_insert, mem_rivals, mem_rivals, List.mem_append, List.mem_singleton]
    constructor
    · rintro ⟨hj | rfl, hs⟩
      · exact .inr ⟨hj, hs⟩
      · exact .inl rfl
    · rintro (rfl | ⟨hj, hs⟩)
      · exact ⟨.inr rfl, r, hr, rfl, rfl⟩
      · exact ⟨.inl hj, hs⟩
  have hnew : i ∉ p.rivals done (p.page r) (Text.lower (stem r)) := fun h => hi (mem_rivals.mp h).1
  rw [counted, counted, hinsert, Finset.card_insert_of_notMem hnew, if_neg (Nat.succ_ne_zero _)]
  split
  · next h => rw [h]; rfl
  · rfl

/-! ### Asking for one more -/

theorem upward_rest (h : ∀ j, (q.get? j).map unanchored = (p.get? j).map unanchored) (steps : Nat)
    (next : Option ReflectionId) :
    (q.upward steps next).map unanchored = (p.upward steps next).map unanchored := by
  induction steps generalizing next with
  | zero => rfl
  | succ steps ih =>
    cases next with
    | none => rfl
    | some j =>
      have hj := h j
      rw [upward, upward, Option.bind_some, Option.bind_some]
      cases hq : q.get? j with
      | none =>
        rw [hq, Option.map_none] at hj
        rw [Option.map_eq_none_iff.mp hj.symm]
      | some s =>
        rw [hq, Option.map_some] at hj
        obtain ⟨r, hr, hrs⟩ := Option.map_eq_some_iff.mp hj.symm
        have hparent : s.parent = r.parent :=
          (congrArg Reflection.parent hrs.symm : (unanchored s).parent = (unanchored r).parent)
        rw [hr]
        simp only [List.map_cons]
        rw [hrs, hparent, ih]

/-- The page does not depend on the anchors. -/
theorem page_rest (h : ∀ j, (q.get? j).map unanchored = (p.get? j).map unanchored)
    {s : Reflection} (hrs : unanchored s = unanchored r) : q.page s = p.page r := by
  have hid : s.id = r.id := (congrArg Reflection.id hrs : (unanchored s).id = (unanchored r).id)
  have hfind (l : List Reflection) : (l.find? hasPage).map unanchored =
      (l.map unanchored).find? hasPage := by
    rw [List.find?_map]
    rfl
  have helim (o : Option Reflection) (i : ReflectionId) :
      o.elim i (·.id) = (o.map unanchored).elim i (·.id) := by cases o <;> rfl
  have hparent : q.parent? r.id = p.parent? r.id := by
    have hbind (o : Option Reflection) : o.bind (·.parent) = (o.map unanchored).bind (·.parent) := by
      cases o <;> rfl
    rw [parent?, parent?, hbind, h, ← hbind]
  change ((s :: q.ancestors s.id).find? hasPage).elim s.id (·.id) =
    ((r :: p.ancestors r.id).find? hasPage).elim r.id (·.id)
  rw [helim, helim (List.find? ..), hfind, hfind, List.map_cons, List.map_cons, hrs, hid, ancestors,
    ancestors, hparent, upward_rest h]

theorem takeWhile_ne (before after : List ReflectionId) (hi : i ∉ before) :
    (before ++ i :: after).takeWhile (· ≠ i) = before := by
  rw [List.takeWhile_append_of_pos fun j hj => decide_eq_true (ne_of_mem_of_not_mem hj hi),
    List.takeWhile_cons_of_neg (by simp), List.append_nil]

theorem not_mem_takeWhile (i : ReflectionId) (calls : List ReflectionId) :
    i ∉ calls.takeWhile (· ≠ i) := fun h => by simpa using List.mem_takeWhile_imp h

/-- An anchor stays as it was first given. -/
theorem Numbered.anchorAmong_append (hp : p.Numbered) (hi : i ∈ done) (more : List ReflectionId) :
    p.anchorAmong (done ++ more) i = p.anchorAmong done i := by
  obtain ⟨before, after, rfl, hbefore⟩ := List.eq_append_cons_of_mem hi
  refine Option.map_congr fun r hr => ?_
  rw [earlier, earlier, hp.id i r hr, List.append_assoc, List.cons_append,
    takeWhile_ne _ _ hbefore, takeWhile_ne _ _ hbefore]

theorem Numbered.anchorAmong_new (hp : p.Numbered) (hr : p.get? i = some r) (hi : i ∉ done) :
    p.anchorAmong (done ++ [i]) i =
      some (joined (stem r) (p.counted done (p.page r) (Text.lower (stem r)))) := by
  rw [anchorAmong, hr, Option.map_some, earlier, hp.id i r hr, takeWhile_ne _ _ hi]

theorem anchor_of_given {s : Reflection} {a : String} (hs : q.get? i = some s)
    (ha : s.anchor = some a) : q.anchor i = (q, some a) := by
  rw [anchor, hs]
  simp only [ha]

/-- One more anchor counted that begins with a text. -/
def tally (key : String) (count : Option Nat) (r : Reflection) : Reflection :=
  { r with anchorCounts := Assoc.insert key (count.elim 1 (· + 1)) r.anchorCounts }

/-- A reflection with its anchor. -/
def anchored (text : String) (r : Reflection) : Reflection := { r with anchor := some text }

/-- A first anchor is counted on the page and kept. -/
theorem anchor_of_new {s : Reflection} (hs : q.get? i = some s) (hid : s.id = i)
    (ha : s.anchor = none) {count : Option Nat}
    (hcount : (q.get? (q.page s)).bind (·.anchorCounts.lookup (Text.lower (stem s))) = count) :
    q.anchor i = ((q.update (q.page s) (tally (Text.lower (stem s)) count)).update i
      (anchored (joined (stem s) count)), some (joined (stem s) count)) := by
  subst hcount
  rw [anchor, hs]
  simp only [ha, stem, joined, hid]
  rfl

theorem rest_update {f : Reflection → Reflection} (hf : ∀ s, unanchored (f s) = unanchored s) :
    ((q.update i f).get? j).map unanchored = (q.get? j).map unanchored := by
  rw [get?_update]
  split
  · rw [Option.map_map]
    exact Option.map_congr fun s _ => hf s
  · rfl

theorem unanchored_tally (key : String) (count : Option Nat) (r : Reflection) :
    unanchored (tally key count r) = unanchored r := rfl

theorem unanchored_anchored (text : String) (r : Reflection) :
    unanchored (anchored text r) = unanchored r := rfl

/-- Counting leaves the anchors as they are. -/
theorem exists_of_tally {s : Reflection} {count : Option Nat}
    (hs : (q.update i (tally key count)).get? j = some s) :
    ∃ t, q.get? j = some t ∧ s.anchor = t.anchor := by
  rw [get?_update] at hs
  split at hs
  · obtain ⟨t, ht, rfl⟩ := Option.map_eq_some_iff.mp hs
    exact ⟨t, ht, rfl⟩
  · exact ⟨s, hs, rfl⟩

/-- An anchor given leaves the counts as they are. -/
theorem exists_of_anchored {s : Reflection} {text : String}
    (hs : (q.update i (anchored text)).get? j = some s) :
    ∃ t, q.get? j = some t ∧ s.anchorCounts = t.anchorCounts := by
  rw [get?_update] at hs
  split at hs
  · obtain ⟨t, ht, rfl⟩ := Option.map_eq_some_iff.mp hs
    exact ⟨t, ht, rfl⟩
  · exact ⟨s, hs, rfl⟩

namespace Asked

theorem start (h : p.Unanchored) : Asked p [] p where
  rest _ := rfl
  anchor j s hs := by rw [(h j s hs).1, if_neg List.not_mem_nil]
  counts j s key hs := by rw [(h j s hs).2, counted_nil]; rfl

variable (h : Asked p done q)

include h

theorem get? {s : Reflection} (hs : q.get? j = some s) :
    ∃ r, p.get? j = some r ∧ unanchored s = unanchored r := by
  have hrest := h.rest j
  rw [hs, Option.map_some] at hrest
  obtain ⟨r, hr, hrs⟩ := Option.map_eq_some_iff.mp hrest.symm
  exact ⟨r, hr, hrs.symm⟩

/-- Nothing new: the anchor was given before, or there is no such reflection. -/
theorem again (hp : p.Numbered) (hi : i ∈ done ∨ p.get? i = none) : Asked p (done ++ [i]) q where
  rest := h.rest
  anchor j s hs := by
    obtain ⟨r, hr, -⟩ := h.get? hs
    rw [h.anchor j s hs]
    by_cases hj : j ∈ done
    · rw [if_pos hj, if_pos (List.mem_append_left _ hj), hp.anchorAmong_append hj]
    · have hne : j ≠ i := by
        rintro rfl
        exact Option.some_ne_none r (hr.symm.trans (hi.resolve_left hj))
      rw [if_neg hj, if_neg]
      simpa using ⟨hj, hne⟩
  counts j s key hs := by
    rw [h.counts j s key hs, counted_append_of_not]
    refine hi.imp id fun hnone => ?_
    rintro ⟨r, hr, -⟩
    rw [hnone] at hr
    cases hr

/-- The first time: the anchor is given, and counted on the page. -/
theorem given (hp : p.Numbered) (hr : p.get? i = some r) (hi : i ∉ done) {count : Option Nat}
    (hcount : p.counted done (p.page r) (Text.lower (stem r)) = count) :
    Asked p (done ++ [i]) ((q.update (p.page r) (tally (Text.lower (stem r)) count)).update i
      (anchored (joined (stem r) count))) where
  rest j := by rw [rest_update (unanchored_anchored _), rest_update (unanchored_tally _ _), h.rest]
  anchor j s hs := by
    by_cases hij : i = j
    · subst hij
      rw [get?_update_self] at hs
      obtain ⟨t, -, rfl⟩ := Option.map_eq_some_iff.mp hs
      rw [if_pos (List.mem_append_right _ (List.mem_singleton_self _)), hp.anchorAmong_new hr hi,
        hcount]
      rfl
    · rw [get?_update_of_ne hij] at hs
      obtain ⟨t, ht, hanchor⟩ := exists_of_tally hs
      rw [hanchor, h.anchor j t ht]
      by_cases hj : j ∈ done
      · rw [if_pos hj, if_pos (List.mem_append_left _ hj), hp.anchorAmong_append hj]
      · rw [if_neg hj, if_neg]
        simpa using ⟨hj, Ne.symm hij⟩
  counts j s key hs := by
    obtain ⟨t, ht, hcounts⟩ := exists_of_anchored hs
    rw [hcounts]
    by_cases hpage : p.page r = j
    · subst hpage
      rw [get?_update_self] at ht
      obtain ⟨u, hu, rfl⟩ := Option.map_eq_some_iff.mp ht
      rw [tally]
      by_cases hkey : key = Text.lower (stem r)
      · rw [hkey, Assoc.lookup_insert_self, counted_append_of_rival hr hi, hcount]
      · rw [Assoc.lookup_insert_of_ne hkey, h.counts _ u key hu, counted_append_of_not]
        refine .inr ?_
        rintro ⟨s, hs, -, hstem⟩
        exact hkey (Option.some.inj (hr.symm.trans hs) ▸ hstem.symm)
    · rw [get?_update_of_ne hpage] at ht
      rw [h.counts j t key ht, counted_append_of_not]
      refine .inr ?_
      rintro ⟨s, hs, hs', -⟩
      exact hpage (Option.some.inj (hr.symm.trans hs) ▸ hs')

/-- The answer is the anchor among those asked for so far. -/
theorem step (hp : p.Numbered) (hshallow : p.Shallow) (i : ReflectionId) :
    Asked p (done ++ [i]) (q.anchor i).1 ∧ (q.anchor i).2 = p.anchorAmong (done ++ [i]) i := by
  cases hs : q.get? i with
  | none =>
    have hnone : p.get? i = none := by
      have hrest := h.rest i
      rw [hs, Option.map_none] at hrest
      exact Option.map_eq_none_iff.mp hrest.symm
    rw [Project.anchor, hs, anchorAmong, hnone]
    exact ⟨h.again hp (.inr hnone), rfl⟩
  | some s =>
    obtain ⟨r, hr, hrs⟩ := h.get? hs
    have hanchor := h.anchor i s hs
    by_cases hi : i ∈ done
    · rw [if_pos hi, anchorAmong, hr, Option.map_some] at hanchor
      rw [anchor_of_given hs hanchor, hp.anchorAmong_append hi, anchorAmong, hr]
      exact ⟨h.again hp (.inl hi), rfl⟩
    · rw [if_neg hi] at hanchor
      have hid : s.id = r.id := (congrArg Reflection.id hrs : (unanchored s).id = (unanchored r).id)
      have hstem : stem s = stem r := (congrArg stem hrs : stem (unanchored s) = stem (unanchored r))
      have hpage : q.page s = p.page r := page_rest h.rest hrs
      obtain ⟨t, ht⟩ := contains_iff.mp (hp.shownOn_page hshallow hr).contains
      have hcount : (q.get? (q.page s)).bind (·.anchorCounts.lookup (Text.lower (stem s))) =
          p.counted done (p.page r) (Text.lower (stem r)) := by
        have hrest := h.rest (p.page r)
        rw [ht, Option.map_some] at hrest
        obtain ⟨u, hu, -⟩ := Option.map_eq_some_iff.mp hrest
        rw [hpage, hstem, hu, Option.bind_some, h.counts _ u _ hu]
      rw [anchor_of_new hs (hid.trans (hp.id i r hr)) hanchor hcount, hpage, hstem,
        hp.anchorAmong_new hr hi]
      exact ⟨h.given hp hr hi rfl, rfl⟩

/-- Every anchor that is asked for in a run is the one that it has among all that are asked for. -/
theorem run (hp : p.Numbered) (hshallow : p.Shallow) (calls : List ReflectionId) :
    Asked p (done ++ calls) (q.anchors calls).1 ∧
      (q.anchors calls).2 = calls.map (p.anchorAmong (done ++ calls)) := by
  induction calls generalizing done q with
  | nil => exact ⟨(List.append_nil done).symm ▸ h, rfl⟩
  | cons i calls ih =>
    obtain ⟨hstep, hanswer⟩ := h.step hp hshallow i
    obtain ⟨hrun, hanswers⟩ := ih hstep
    rw [List.append_assoc, List.singleton_append] at hrun hanswers
    refine ⟨hrun, ?_⟩
    have hi : i ∈ done ++ [i] := List.mem_append_right _ (List.mem_singleton_self i)
    rw [anchors, List.map_cons, hanswers, hanswer, ← hp.anchorAmong_append hi calls,
      List.append_assoc, List.singleton_append]

end Asked

/-! ### When anchors are alike -/

/-- The anchor of a reflection in lower case, up to the number behind it. -/
def head (r : Reflection) : String :=
  if (slug r.name).isEmpty then "reflection" else Text.lower (slug r.name)

/-- The number behind the anchor of a reflection. -/
def tail (p : Project) (calls : List ReflectionId) (r : Reflection) : Option Nat :=
  if (slug r.name).isEmpty then some r.id else p.earlier calls r

/-- One has no name that could stand in an anchor, so that a word and its number stand there, and
the other is named like the word and has the number because of the anchors before it. -/
structure Clash (p : Project) (calls : List ReflectionId) (r s : Reflection) : Prop where
  nameless : (slug r.name).isEmpty = true
  word : Text.lower (slug s.name) = "reflection"
  number : p.earlier calls s = some r.id

theorem dash_not_mem_head (r : Reflection) : '-' ∉ (head r).toList := by
  rw [head]
  split
  · decide
  · exact dash_not_mem_slug r.name

theorem stem_of_nameless (h : (slug r.name).isEmpty = true) :
    stem r = joined "reflection" (some r.id) := by
  rw [stem, if_pos h]
  rfl

theorem stem_of_named (h : ¬ (slug r.name).isEmpty = true) : stem r = slug r.name := by
  rw [stem, if_neg h]

theorem lower_reflection : Text.lower "reflection" = "reflection" := by decide

/-- The number of a reflection stands in the anchor of no other, as far as nothing is behind it. -/
theorem Numbered.earlier_of_nameless (hp : p.Numbered)
    (h : (slug r.name).isEmpty = true) : p.earlier calls r = none := by
  rw [earlier, counted_eq_none, Finset.eq_empty_iff_forall_notMem]
  intro j hj
  obtain ⟨hcalls, s, hs, -, hstem⟩ := mem_rivals.mp hj
  have hne : j ≠ r.id := ne_of_mem_of_not_mem hcalls (not_mem_takeWhile _ _)
  rw [stem_of_nameless h, lower_joined, lower_reflection] at hstem
  by_cases hempty : (slug s.name).isEmpty = true
  · rw [stem_of_nameless hempty, lower_joined, lower_reflection,
      joined_eq_iff (by decide) (by decide), hp.id j s hs] at hstem
    exact hne (Option.some.inj hstem.2)
  · rw [stem_of_named hempty] at hstem
    have hnone := (joined_eq_iff (m := none) (dash_not_mem_slug s.name) (by decide)).mp hstem
    cases hnone.2

theorem Numbered.lower_anchorAmong (hp : p.Numbered) (hr : p.get? i = some r) :
    (p.anchorAmong calls i).map Text.lower = some (joined (head r) (p.tail calls r)) := by
  rw [anchorAmong, hr, Option.map_some, Option.map_some, lower_joined, head, tail]
  split
  · next h =>
    rw [stem_of_nameless h, lower_joined, lower_reflection, hp.earlier_of_nameless h]
    rfl
  · next h => rw [stem_of_named h]

/-- Of two reflections one is asked for first. -/
theorem takeWhile_subset_or (hi : i ∈ calls) (hj : j ∈ calls) (hne : i ≠ j) :
    (i ∈ calls.takeWhile (· ≠ j) ∧ calls.takeWhile (· ≠ i) ⊆ calls.takeWhile (· ≠ j)) ∨
      (j ∈ calls.takeWhile (· ≠ i) ∧ calls.takeWhile (· ≠ j) ⊆ calls.takeWhile (· ≠ i)) := by
  induction calls with
  | nil => exact absurd hi List.not_mem_nil
  | cons k calls ih =>
    by_cases hki : k = i
    · subst hki
      rw [List.takeWhile_cons_of_pos (by simpa using hne), List.takeWhile_cons_of_neg (by simp)]
      exact .inl ⟨List.mem_cons_self .., List.nil_subset _⟩
    by_cases hkj : k = j
    · subst hkj
      rw [List.takeWhile_cons_of_neg (by simp), List.takeWhile_cons_of_pos (by simpa using hki)]
      exact .inr ⟨List.mem_cons_self .., List.nil_subset _⟩
    rw [List.takeWhile_cons_of_pos (by simpa using hkj),
      List.takeWhile_cons_of_pos (by simpa using hki)]
    have hrest := ih ((List.mem_cons.mp hi).resolve_left (Ne.symm hki))
      ((List.mem_cons.mp hj).resolve_left (Ne.symm hkj))
    exact hrest.imp (fun h => ⟨List.mem_cons_of_mem _ h.1, List.cons_subset_cons _ h.2⟩)
      (fun h => ⟨List.mem_cons_of_mem _ h.1, List.cons_subset_cons _ h.2⟩)

/-- With one rival more the count is another. -/
theorem counted_ne (hsub : done ⊆ more) (hi : i ∉ done) (hmem : i ∈ p.rivals more page key) :
    p.counted done page key ≠ p.counted more page key := by
  have hlt : (p.rivals done page key).card < (p.rivals more page key).card := by
    refine Finset.card_lt_card (Finset.ssubset_iff_of_subset (fun j hj => ?_) |>.mpr ⟨i, hmem, ?_⟩)
    · obtain ⟨hj, hs⟩ := mem_rivals.mp hj
      exact mem_rivals.mpr ⟨hsub hj, hs⟩
    · exact fun h => hi (mem_rivals.mp h).1
  rw [counted, counted, if_neg (Nat.ne_of_gt (Nat.zero_lt_of_lt hlt))]
  split
  · exact Option.some_ne_none _ |>.symm
  · exact fun h => Nat.ne_of_lt hlt (Option.some.inj h)

/-- Rivals of one page get different numbers. -/
theorem Numbered.earlier_ne {s : Reflection} (hp : p.Numbered) (hi : i ∈ calls) (hj : j ∈ calls)
    (hne : i ≠ j) (hr : p.get? i = some r) (hs : p.get? j = some s) (hpage : p.page r = p.page s)
    (hstem : Text.lower (stem r) = Text.lower (stem s)) :
    p.earlier calls r ≠ p.earlier calls s := by
  rw [earlier, earlier, hp.id i r hr, hp.id j s hs, hpage, hstem]
  rcases takeWhile_subset_or hi hj hne with ⟨hmem, hsub⟩ | ⟨hmem, hsub⟩
  · exact counted_ne hsub (not_mem_takeWhile i _) (mem_rivals.mpr ⟨hmem, r, hr, hpage, hstem⟩)
  · exact (counted_ne hsub (not_mem_takeWhile j _) (mem_rivals.mpr ⟨hmem, s, hs, rfl, rfl⟩)).symm

/-- Two anchors of one page are alike in one case alone. -/
theorem Numbered.lower_anchorAmong_eq_iff {s : Reflection} (hp : p.Numbered) (hi : i ∈ calls)
    (hj : j ∈ calls) (hne : i ≠ j) (hr : p.get? i = some r) (hs : p.get? j = some s)
    (hpage : p.page r = p.page s) :
    (p.anchorAmong calls i).map Text.lower = (p.anchorAmong calls j).map Text.lower ↔
      p.Clash calls r s ∨ p.Clash calls s r := by
  rw [hp.lower_anchorAmong hr, hp.lower_anchorAmong hs, Option.some_inj,
    joined_eq_iff (dash_not_mem_head r) (dash_not_mem_head s), head, head, tail, tail]
  by_cases hempty : (slug r.name).isEmpty = true
  · by_cases hempty' : (slug s.name).isEmpty = true
    · rw [if_pos hempty, if_pos hempty', if_pos hempty, if_pos hempty', hp.id i r hr, hp.id j s hs]
      constructor
      · exact fun h => absurd (Option.some.inj h.2) hne
      · rintro (h | h)
        · cases (hp.earlier_of_nameless hempty').symm.trans h.number
        · cases (hp.earlier_of_nameless hempty).symm.trans h.number
    · rw [if_pos hempty, if_neg hempty', if_pos hempty, if_neg hempty']
      constructor
      · exact fun h => .inl ⟨hempty, h.1.symm, h.2.symm⟩
      · rintro (h | h)
        · exact ⟨h.word.symm, h.number.symm⟩
        · exact absurd h.nameless hempty'
  · by_cases hempty' : (slug s.name).isEmpty = true
    · rw [if_neg hempty, if_pos hempty', if_neg hempty, if_pos hempty']
      constructor
      · exact fun h => .inr ⟨hempty', h.1, h.2⟩
      · rintro (h | h)
        · exact absurd h.nameless hempty
        · exact ⟨h.word, h.number⟩
    · rw [if_neg hempty, if_neg hempty', if_neg hempty, if_neg hempty']
      constructor
      · rintro ⟨hword, hnumber⟩
        rw [← stem_of_named hempty, ← stem_of_named hempty'] at hword
        exact absurd hnumber (hp.earlier_ne hi hj hne hr hs hpage hword)
      · rintro (h | h)
        · exact absurd h.nameless hempty
        · exact absurd h.nameless hempty'

/-- Anchors asked for one after the other, with nothing done in between, on a project where none was
asked for before. The answer is the same each time, and the anchors of two reflections that are
shown on one page differ, also in lower case alone, except where the number that stands in for a
missing name is also what tells a reflection from its namesakes. -/
theorem anchors_run (hp : p.Numbered) (hfresh : p.Unanchored) (hshallow : p.Shallow)
    (calls : List ReflectionId) :
    (p.anchors calls).2 = calls.map (p.anchorAmong calls) ∧
    ∀ i ∈ calls, ∀ j ∈ calls, i ≠ j → ∀ r s page, p.get? i = some r → p.get? j = some s →
      p.ShownOn i page → p.ShownOn j page →
        ((p.anchorAmong calls i).map Text.lower = (p.anchorAmong calls j).map Text.lower ↔
          p.Clash calls r s ∨ p.Clash calls s r) := by
  refine ⟨((Asked.start hfresh).run hp hshallow calls).2, ?_⟩
  intro i hi j hj hne r s page hr hs hshown hshown'
  have hpage : p.page r = page := (hp.page_eq_iff hshallow hr).mpr hshown
  have hpage' : p.page s = page := (hp.page_eq_iff hshallow hs).mpr hshown'
  exact hp.lower_anchorAmong_eq_iff hi hj hne hr hs (hpage.trans hpage'.symm)

/-- A variable without a letter in its name and two that are named like what stands in for that. -/
def wordNamed : Project :=
  (((ofName "p").after (.add 0 .children (.declaration "$$" .variable_))).after
    (.add 0 .children (.declaration "reflection" .variable_))).after
    (.add 0 .children (.declaration "reflection" .variable_))

theorem sound_wordNamed : wordNamed.Sound :=
  .after (.after (.after (sound_ofName "p") trivial rfl) trivial rfl) trivial rfl

theorem wordNamed_cases (h : wordNamed.get? i = some r) : i = 0 ∨ i = 1 ∨ i = 2 ∨ i = 3 := by
  have hlt (n : Nat) (hn : n < 4) : n = 0 ∨ n = 1 ∨ n = 2 ∨ n = 3 := by omega
  exact hlt i (lt_size_of_get? h)

theorem unanchored_wordNamed : wordNamed.Unanchored := by
  intro i r hr
  obtain rfl | rfl | rfl | rfl := wordNamed_cases hr
  all_goals
    cases hr
    exact ⟨rfl, rfl⟩

theorem shallow_wordNamed : wordNamed.Shallow := by
  intro i hi
  obtain ⟨r, hr⟩ := contains_iff.mp hi
  obtain rfl | rfl | rfl | rfl := wordNamed_cases hr
  · exact ⟨0, by decide, .root⟩
  all_goals exact ⟨1, by decide, .up rfl .root⟩

theorem shownOn_wordNamed {i : ReflectionId} (hi : i = 1 ∨ i = 2 ∨ i = 3) :
    wordNamed.ShownOn i ReflectionId.project := by
  obtain rfl | rfl | rfl := hi
  all_goals exact .above rfl rfl (by decide) rfl (.here rfl (.inr rfl))

/-- The number of the first stands in its anchor, and is what tells the third from the second. -/
theorem anchors_run_wordNamed :
    (wordNamed.anchors [1, 2, 3]).2 = [some "reflection-1", some "reflection", some "reflection-1"] ∧
      ∃ r s, wordNamed.get? 1 = some r ∧ wordNamed.get? 3 = some s ∧
        wordNamed.Clash [1, 2, 3] r s := by
  obtain ⟨hanswers, halike⟩ := anchors_run sound_wordNamed.numbered unanchored_wordNamed
    shallow_wordNamed [1, 2, 3]
  have hthird : wordNamed.anchorAmong [1, 2, 3] 3 = some "reflection-1" := by decide +kernel
  have hfirst : wordNamed.anchorAmong [1, 2, 3] 1 = some "reflection-1" := by decide +kernel
  have hsecond : wordNamed.anchorAmong [1, 2, 3] 2 = some "reflection" := by decide +kernel
  have hcalls : [1, 2, 3].map (wordNamed.anchorAmong [1, 2, 3]) =
      [some "reflection-1", some "reflection", some "reflection-1"] := by
    rw [List.map_cons, List.map_cons, List.map_cons, hfirst, hsecond, hthird, List.map_nil]
  refine ⟨hanswers.trans hcalls, _, _, rfl, rfl, ?_⟩
  have hclash := (halike 1 (by decide) 3 (by decide) (by decide) _ _ ReflectionId.project rfl rfl
    (shownOn_wordNamed (.inl rfl)) (shownOn_wordNamed (.inr (.inr rfl)))).mp
    (congrArg _ (hfirst.trans hthird.symm))
  exact hclash.resolve_right fun h => absurd h.nameless (by decide +kernel)

/-- Not all anchors of one page differ. -/
theorem not_forall_anchors_ne : ¬ ∀ (p : Project) (calls : List ReflectionId), p.Numbered →
    p.Unanchored → p.Shallow → ∀ i j page a b, i ≠ j → p.ShownOn i page → p.ShownOn j page →
      (i, some a) ∈ calls.zip (p.anchors calls).2 → (j, some b) ∈ calls.zip (p.anchors calls).2 →
        Text.lower a ≠ Text.lower b := by
  intro h
  exact h wordNamed [1, 2, 3] sound_wordNamed.numbered unanchored_wordNamed shallow_wordNamed 1 3
    ReflectionId.project "reflection-1" "reflection-1" (by decide) (shownOn_wordNamed (.inl rfl))
    (shownOn_wordNamed (.inr (.inr rfl))) (by decide +kernel) (by decide +kernel) rfl

end DocTree.Project
