import DocTree.FileTable
import DocTree.Proofs.RoundTrip.Path

/-!
Paths written and read again. A path is written as it is seen from the root and resolved against the
root when it is read. What comes out stays the same from then on; so does a path that is cut where an
anchor begins. A rooted path need not be cleaned to the end: a segment that looks like a drive may have
come to the front.
-/

namespace DocTree

theorem Text.not_mem_of_cutFirst {sep : Char} {s before after : List Char}
    (h : cutFirst sep s = some (before, after)) : sep ∉ before := by
  induction s generalizing before with
  | nil => cases h
  | cons ch rest ih =>
    rw [cutFirst] at h
    split at h
    · obtain ⟨rfl, -⟩ := Prod.mk.inj (Option.some.inj h)
      exact List.not_mem_nil
    · next hne =>
      obtain ⟨⟨b, a⟩, hcut, heq⟩ := Option.map_eq_some_iff.mp h
      obtain ⟨rfl, rfl⟩ := Prod.mk.inj heq
      intro hmem
      rcases List.mem_cons.mp hmem with heq | hmem
      · exact hne heq.symm
      · exact ih hcut hmem

theorem Text.cutFirst_eq_none {sep : Char} {s : List Char} : cutFirst sep s = none ↔ sep ∉ s := by
  induction s with
  | nil => simp [cutFirst]
  | cons ch rest ih =>
    rw [cutFirst, List.mem_cons, not_or]
    by_cases h : ch = sep
    · simp [h]
    · rw [if_neg h, Option.map_eq_none_iff, ih]
      exact (and_iff_right (Ne.symm h)).symm

namespace Path

/-- A path written and read again. -/
def reread (root : String) (p : Path) : Path :=
  resolve root (if p.isAbsolute then p.relativeTo root else p.text)

/-- The segments of a directory. -/
def parts (root : String) : List Segment :=
  cancel true (split (slashed root.toList))

variable {root : String} {p : Path} {r : Root} {S : List Segment}

/-! ### The root -/

/-- The root is a directory at `/`. -/
def Rooted (root : String) : Prop := root.toList.head? = some '/'

theorem Rooted.slashed (h : Rooted root) : ∃ rest, Path.slashed root.toList = '/' :: rest := by
  obtain ⟨rest, hrest⟩ : ∃ rest, root.toList = '/' :: rest := by
    rw [Rooted] at h
    cases hlist : root.toList with
    | nil => rw [hlist] at h; cases h
    | cons ch rest => exact ⟨rest, by rw [hlist] at h; rw [Option.some.inj h]⟩
  exact ⟨Path.slashed rest, by rw [hrest]; rfl⟩

theorem root?_slash (s : List Char) : root? ('/' :: s) = some .slash :=
  root?_text (r := .slash) trivial s

theorem segments_slash (s : List Char) : segments ('/' :: s) = split s :=
  segments_text (r := .slash) trivial s

/-- A directory is cleaned like a file. -/
theorem Rooted.cleaned (h : Rooted root) : (ofText root).Cleaned .slash (parts root) := by
  obtain ⟨rest, hrest⟩ := h.slashed
  obtain ⟨r', htext, hcleaned⟩ := cleaned_ofText (r := .slash) hrest (root?_slash rest)
  rw [segments_slash] at hcleaned
  refine ⟨hcleaned.text.trans (by rw [htext, parts, hrest, split_slash]), trivial, ?_⟩
  rw [parts, hrest, split_slash]
  exact hcleaned.plain

/-- A path that is not rooted goes on from the directory. -/
theorem Rooted.resolve (h : Rooted root) {text : String} {w : List Char} (hw : text.toList = w)
    (hbackslash : '\\' ∉ w) (hnone : root? w = none) :
    (resolve root text).Cleaned .slash (((split w).foldl (step true) (parts root).reverse).reverse) := by
  obtain ⟨rest, hrest⟩ := h.slashed
  have hslashed : Path.slashed text.toList = w := hw ▸ slashed_of_not_mem (hw ▸ hbackslash)
  have hmem : '\\' ∉ '/' :: (rest ++ '/' :: w) := by
    intro hmem
    rcases List.mem_cons.mp hmem with heq | hmem
    · exact absurd heq (by decide)
    · rcases List.mem_append.mp hmem with hmem | hmem
      · exact not_mem_slashed root.toList (hrest ▸ List.mem_cons_of_mem _ hmem)
      · exact hbackslash ((List.mem_cons.mp hmem).resolve_left (by decide))
  have hslashes : Path.slashed (String.ofList ('/' :: (rest ++ '/' :: w))).toList =
      '/' :: (rest ++ '/' :: w) := by
    rw [String.toList_ofList]
    exact slashed_of_not_mem hmem
  obtain ⟨r', htext, hcleaned⟩ := cleaned_ofText (r := .slash) hslashes (root?_slash _)
  have hresolve : Path.resolve root text = ofText (String.ofList ('/' :: (rest ++ '/' :: w))) := by
    rw [Path.resolve, hslashed, hnone, hrest]
    rfl
  have hparts : cancel true (segments ('/' :: (rest ++ '/' :: w))) =
      ((split w).foldl (step true) (parts root).reverse).reverse := by
    rw [segments_slash, split_append, cancel, List.foldl_append, parts, hrest, split_slash, cancel,
      List.reverse_reverse]
  rw [hparts] at hcleaned
  rw [hresolve]
  exact ⟨hcleaned.text.trans (by rw [htext]), trivial, hcleaned.plain⟩

/-! ### Seen from the root -/

theorem take_commonLength (a b : List Segment) :
    a.take (commonLength a b) = b.take (commonLength a b) := by
  induction a generalizing b with
  | nil => cases b <;> rfl
  | cons x xs ih =>
    cases b with
    | nil => rfl
    | cons y ys =>
      rw [commonLength]
      split
      · next h => rw [List.take_succ_cons, List.take_succ_cons, ih ys, h]
      · rfl

theorem commonLength_le (a b : List Segment) : commonLength a b ≤ a.length := by
  induction a generalizing b with
  | nil => cases b <;> exact Nat.le_refl 0
  | cons x xs ih =>
    cases b with
    | nil => exact Nat.zero_le _
    | cons y ys =>
      rw [commonLength]
      split
      · exact Nat.succ_le_succ (ih ys)
      · exact Nat.zero_le _

/-- The way from one list of segments to another. -/
def route (U S : List Segment) : List Segment :=
  List.replicate (U.length - commonLength U S) dotDot ++ S.drop (commonLength U S)

theorem relativeTo_slash (hroot : Rooted root) (h : p.Cleaned .slash S) : p.relativeTo root =
    if (route (parts root) S).isEmpty then "." else String.ofList (join (route (parts root) S)) := by
  have hsource : Path.cleaned root.toList = (ofText root).text.toList := by
    rw [ofText, String.toList_ofList]
  rw [relativeTo, hsource]
  simp only [hroot.cleaned.root?, hroot.cleaned.segments, h.root?, h.segments]
  rfl

theorem relativeTo_drive (hroot : Rooted root) {letter : Char} (h : p.Cleaned (.drive letter) S) :
    p.relativeTo root = p.text := by
  have hsource : Path.cleaned root.toList = (ofText root).text.toList := by
    rw [ofText, String.toList_ofList]
  rw [relativeTo, hsource]
  simp only [hroot.cleaned.root?, h.root?]
  rfl

/-- A path on a drive stays. -/
theorem reread_drive (hroot : Rooted root) {letter : Char} (h : p.Cleaned (.drive letter) S) :
    reread root p = p := by
  rw [reread, if_pos h.isAbsolute, relativeTo_drive hroot h, Path.resolve,
    slashed_of_not_mem h.backslash, h.root?, String.ofList_toList]
  exact h.ofText

/-- The route leads from one directory to another. -/
theorem foldl_step_route {U : List Segment} (hU : ∀ s ∈ U, Plain s) (hS : ∀ s ∈ S, Plain s) :
    ((route U S).foldl (step true) U.reverse).reverse = S := by
  have hdrop : ∀ s ∈ S.drop (commonLength U S), Plain s := fun s hs =>
    hS s (List.mem_of_mem_drop hs)
  rw [route, List.foldl_append, foldl_step_up (fun s hs => hU s (List.mem_reverse.mp hs)),
    foldl_step_plain hdrop, List.reverse_append, List.reverse_reverse, List.drop_reverse,
    List.reverse_reverse, Nat.sub_sub_self (commonLength_le _ _), take_commonLength,
    List.take_append_drop]

theorem route_segments (hS : ∀ s ∈ S, Plain s) (U : List Segment) :
    ∀ s ∈ route U S, s ≠ [] ∧ '/' ∉ s ∧ '\\' ∉ s := by
  intro s hs
  rcases List.mem_append.mp hs with hs | hs
  · rw [(List.mem_replicate.mp hs).2]
    decide
  · have hplain := hS s (List.mem_of_mem_drop hs)
    exact ⟨hplain.ne_nil, hplain.slash, hplain.backslash⟩

/-! ### Looking like a drive -/

/-- What stands behind the root does not look like a drive. -/
def Clear (root : String) (S : List Segment) : Prop :=
  ∀ d more, S = parts root ++ d :: more → drive? d = none

/-- A drive is told by two characters. -/
theorem drive?_cons_cons (first second : Char) (s t : List Char) :
    drive? (first :: second :: s) = drive? (first :: second :: t) := by
  by_cases h : second = ':'
  · rw [h]
    rfl
  · have hnone : ∀ tail, drive? (first :: second :: tail) = none := fun tail => by
      rw [drive?.eq_def]
      split
      · next heq => exact absurd (List.cons.inj (List.cons.inj heq).2).1 h
      · rfl
    exact (hnone s).trans (hnone t).symm

theorem drive?_of_append {s t : List Char} (h : drive? (s ++ t) = none) : drive? s = none := by
  match s with
  | [] | [_] => rfl
  | first :: second :: rest => exact (drive?_cons_cons first second rest _).trans h

/-- Whether a text begins with a drive is told by its first segment. -/
theorem drive?_join (d : Segment) (more : List Segment) : drive? (join (d :: more)) = drive? d := by
  cases more with
  | nil => rw [join_singleton]
  | cons next rest =>
    rw [join_cons_cons]
    match d with
    | [] => exact drive?_slash _
    | [ch] => rfl
    | first :: second :: others => exact drive?_cons_cons first second _ _

theorem head?_join {d : Segment} (hne : d ≠ []) (hslash : '/' ∉ d) (more : List Segment) :
    (join (d :: more)).head? ≠ some '/' := by
  obtain ⟨ch, others, rfl⟩ := List.exists_cons_of_ne_nil hne
  have hch : ch ≠ '/' := fun heq => hslash (heq ▸ List.mem_cons_self ..)
  cases more with
  | nil =>
    rw [join_singleton]
    exact fun h => hch (Option.some.inj h)
  | cons next rest =>
    rw [join_cons_cons]
    exact fun h => hch (Option.some.inj h)

theorem root?_join {d : Segment} (hne : d ≠ []) (hslash : '/' ∉ d) (more : List Segment) :
    root? (join (d :: more)) = (drive? d).map .drive := by
  rw [root?, drive?_join]
  cases drive? d with
  | none => exact if_neg (head?_join hne hslash more)
  | some letter => rfl

theorem commonLength_append (U S : List Segment) : commonLength U (U ++ S) = U.length := by
  induction U with
  | nil => cases S <;> rfl
  | cons x xs ih => rw [List.cons_append, commonLength, if_pos rfl, ih, List.length_cons]

theorem route_append (U S : List Segment) : route U (U ++ S) = S := by
  rw [route, commonLength_append, Nat.sub_self, List.drop_left]
  rfl

/-- A route that does not go up leads on from where it starts. -/
theorem eq_append_of_route {U S : List Segment} {d : Segment} {more : List Segment}
    (h : route U S = d :: more) (hne : d ≠ dotDot) : S = U ++ d :: more := by
  rw [route] at h
  cases hn : U.length - commonLength U S with
  | zero =>
    have hfull : commonLength U S = U.length :=
      Nat.le_antisymm (commonLength_le U S) (Nat.le_of_sub_eq_zero hn)
    rw [hn, List.replicate_zero, List.nil_append] at h
    have htake := take_commonLength U S
    rw [hfull, List.take_length] at htake
    rw [hfull] at h
    calc S = S.take U.length ++ S.drop U.length := (List.take_append_drop ..).symm
      _ = U ++ d :: more := by rw [← htake, h]
  | succ n =>
    rw [hn, List.replicate_succ, List.cons_append] at h
    exact absurd (List.cons.inj h).1.symm hne

theorem drive?_dotDot : drive? dotDot = none := by decide

/-- A path behind whose root nothing looks like a drive stays. -/
theorem reread_clear (hroot : Rooted root) (h : p.Cleaned .slash S) (hclear : Clear root S) :
    reread root p = p := by
  have hfold := foldl_step_route hroot.cleaned.plain h.plain
  have hsegments := route_segments h.plain (parts root)
  rw [reread, if_pos h.isAbsolute, relativeTo_slash hroot h]
  cases hway : route (parts root) S with
  | nil =>
    rw [hway] at hfold
    have hdotted : ".".toList = dot := rfl
    have hdot := hroot.resolve hdotted (by decide) (by decide)
    have hsplit : split dot = [dot] := by decide
    rw [hsplit, List.foldl_cons, step_dot, List.foldl_nil] at hdot
    rw [List.foldl_nil] at hfold
    rw [hfold] at hdot
    exact hdot.ext h
  | cons d more =>
    rw [hway] at hfold hsegments
    obtain ⟨hne, hslash, -⟩ := hsegments d (List.mem_cons_self ..)
    have hdrive : drive? d = none := by
      by_cases hup : d = dotDot
      · rw [hup, drive?_dotDot]
      · exact hclear d more (eq_append_of_route hway hup)
    have hbackslash : '\\' ∉ join (d :: more) :=
      not_mem_join (by decide) fun s hs => (hsegments s hs).2.2
    have hresolve := hroot.resolve (String.toList_ofList (l := join (d :: more))) hbackslash
      (by rw [root?_join hne hslash, hdrive]; rfl)
    rw [split_join fun s hs => ⟨(hsegments s hs).1, (hsegments s hs).2.1⟩, hfold] at hresolve
    exact hresolve.ext h

/-- A path behind whose root something looks like a drive becomes a path on that drive. -/
theorem reread_of_not_clear (hroot : Rooted root) (h : p.Cleaned .slash S)
    (hclear : ¬ Clear root S) : ∃ letter S', (reread root p).Cleaned (.drive letter) S' := by
  obtain ⟨d, hd⟩ := Classical.not_forall.mp hclear
  obtain ⟨more, hmore⟩ := Classical.not_forall.mp hd
  obtain ⟨hS, hdrive⟩ := Classical.not_imp.mp hmore
  obtain ⟨letter, hletter⟩ := Option.ne_none_iff_exists'.mp hdrive
  have hway : route (parts root) S = d :: more := by rw [hS, route_append]
  have hsegments := route_segments h.plain (parts root)
  rw [hway] at hsegments
  obtain ⟨hne, hslash, -⟩ := hsegments d (List.mem_cons_self ..)
  have hbackslash : '\\' ∉ join (d :: more) :=
    not_mem_join (by decide) fun s hs => (hsegments s hs).2.2
  have hroot? : root? (join (d :: more)) = some (.drive letter) := by
    rw [root?_join hne hslash, hletter]
    rfl
  have hslashed : Path.slashed (String.ofList (join (d :: more))).toList = join (d :: more) := by
    rw [String.toList_ofList, slashed_of_not_mem hbackslash]
  obtain ⟨r', htext, hcleaned⟩ := cleaned_ofText hslashed hroot?
  have hresolve : reread root p = ofText (String.ofList (join (d :: more))) := by
    rw [reread, if_pos h.isAbsolute, relativeTo_slash hroot h, hway]
    change resolve root (String.ofList (join (d :: more))) = _
    rw [Path.resolve, hslashed, hroot?]
    rfl
  cases r' with
  | slash => exact absurd htext (by simp [Root.text])
  | drive other => exact ⟨other, _, hresolve ▸ hcleaned⟩

/-- What was written and read once stays. -/
theorem reread_reread (hroot : Rooted root) (h : p.Cleaned r S) :
    reread root (reread root p) = reread root p := by
  cases r with
  | drive letter => rw [reread_drive hroot h, reread_drive hroot h]
  | slash =>
    by_cases hclear : Clear root S
    · rw [reread_clear hroot h hclear, reread_clear hroot h hclear]
    · obtain ⟨letter, S', hdrive⟩ := reread_of_not_clear hroot h hclear
      exact reread_drive hroot hdrive

theorem exists_cleaned_reread (hroot : Rooted root) (h : p.Cleaned r S) :
    ∃ r' S', (reread root p).Cleaned r' S' := by
  cases r with
  | drive letter => exact ⟨_, _, (reread_drive hroot h).symm ▸ h⟩
  | slash =>
    by_cases hclear : Clear root S
    · exact ⟨_, _, (reread_clear hroot h hclear).symm ▸ h⟩
    · obtain ⟨letter, S', hdrive⟩ := reread_of_not_clear hroot h hclear
      exact ⟨_, _, hdrive⟩

/-! ### Cut at an anchor -/

/-- The segments of a path that is cut: some of its own, and what is left of the next one. -/
theorem split_of_cut {segments : List Segment} (h : ∀ s ∈ segments, s ≠ [] ∧ '/' ∉ s)
    {front back : List Char} (hcut : join segments = front ++ '#' :: back) :
    ∃ n x y, segments[n]? = some (x ++ '#' :: y) ∧
      split front = segments.take n ++ split x := by
  induction segments generalizing front with
  | nil => exact absurd hcut.symm (List.append_ne_nil_of_right_ne_nil _ (List.cons_ne_nil _ _))
  | cons a rest ih =>
    cases rest with
    | nil =>
      rw [join_singleton] at hcut
      exact ⟨0, front, back, by rw [hcut]; rfl, rfl⟩
    | cons b rest =>
      obtain ⟨hne, hslash⟩ := h a (List.mem_cons_self ..)
      rw [join_cons_cons] at hcut
      rcases List.append_eq_append_iff.mp hcut with ⟨middle, hfront, hback⟩ | ⟨middle, ha, hback⟩
      · cases middle with
        | nil => exact absurd (List.cons.inj hback).1 (by decide)
        | cons ch middle =>
          obtain ⟨rfl, htail⟩ := List.cons.inj (hback.trans (List.cons_append ..))
          obtain ⟨n, x, y, hn, hsplit⟩ := ih (fun s hs => h s (List.mem_cons_of_mem a hs)) htail
          refine ⟨n + 1, x, y, hn, ?_⟩
          rw [hfront, split_append, split_of_not_mem hne hslash, hsplit]
          rfl
      · cases middle with
        | nil => exact absurd (List.cons.inj hback).1 (by decide)
        | cons ch middle =>
          obtain ⟨rfl, -⟩ := List.cons.inj hback
          exact ⟨0, front, middle, by rw [ha]; rfl, rfl⟩

/-- A path that stays, cut where an anchor begins and cleaned, stays as well. -/
theorem clear_of_cut (hS : ∀ s ∈ S, Plain s) (hclear : Clear root S) {front back : List Char}
    (hcut : join S = front ++ '#' :: back) : Clear root (cancel true (split front)) := by
  obtain ⟨n, x, y, hn, hsplit⟩ :=
    split_of_cut (fun s hs => ⟨(hS s hs).ne_nil, (hS s hs).slash⟩) hcut
  have htake : ∀ m, Clear root (S.take m) := fun m d more heq => by
    refine hclear d (more ++ S.drop m) ?_
    rw [← List.cons_append, ← List.append_assoc, ← heq, List.take_append_drop]
  have hplain : ∀ s ∈ S.take n, Plain s := fun s hs => hS s (List.mem_of_mem_take hs)
  have hwhole := hS _ (List.mem_of_getElem? hn)
  have hslash : '/' ∉ x := fun hmem => hwhole.slash (List.mem_append_left _ hmem)
  rw [hsplit, cancel, List.foldl_append, foldl_step_plain hplain, List.append_nil]
  by_cases hnil : x = []
  · have hempty : split [] = [] := rfl
    rw [hnil, hempty, List.foldl_nil, List.reverse_reverse]
    exact htake n
  · rw [split_of_not_mem hnil hslash, List.foldl_cons, List.foldl_nil]
    by_cases hdot : x = dot
    · rw [hdot, step_dot, List.reverse_reverse]
      exact htake n
    · by_cases hup : x = dotDot
      · have hdrop : step true (S.take n).reverse dotDot = (S.take n).reverse.drop 1 :=
          foldl_step_up (fun s hs => hplain s (List.mem_reverse.mp hs)) 1
        rw [hup, hdrop, List.drop_reverse, List.reverse_reverse, List.take_take]
        exact htake _
      · rw [step_plain hdot hup, List.reverse_cons, List.reverse_reverse]
        intro d more heq
        have hall : S = S.take n ++ (x ++ '#' :: y) :: S.drop (n + 1) := by
          rw [← (List.getElem?_eq_some_iff.mp hn).2, List.getElem_cons_drop,
            List.take_append_drop]
        rcases List.eq_nil_or_concat more with rfl | ⟨others, last, rfl⟩
        · obtain ⟨htake, hx⟩ := List.append_inj' heq rfl
          rw [htake] at hall
          exact drive?_of_append ((List.cons.inj hx).1 ▸ hclear _ _ hall)
        · rw [List.concat_eq_append, ← List.cons_append, ← List.append_assoc] at heq
          exact htake n d others (List.append_inj' heq rfl).1

theorem mem_step {rooted : Bool} {stack : List Segment} {a s : Segment}
    (h : s ∈ step rooted stack a) : s = a ∨ s ∈ stack ∨ s = dotDot ∧ rooted = false := by
  rw [step.eq_def] at h
  split at h
  · exact .inr (.inl h)
  · split at h
    · split at h
      · split at h
        · exact .inr (.inl (List.mem_cons_of_mem _ h))
        · split at h
          · exact .inr (.inl h)
          · next hrooted =>
            rcases List.mem_cons.mp h with h | h
            · exact .inr (.inr ⟨h, Bool.eq_false_iff.mpr hrooted⟩)
            · exact .inr (.inl h)
      · split at h
        · exact .inr (.inl h)
        · next hrooted => exact .inr (.inr ⟨List.mem_singleton.mp h, Bool.eq_false_iff.mpr hrooted⟩)
    · exact (List.mem_cons.mp h).imp_right .inl

/-- Segments that are carried out are of their own, or go up where there is no root. -/
theorem mem_foldl_step {rooted : Bool} {segments stack : List Segment} {s : Segment}
    (h : s ∈ segments.foldl (step rooted) stack) :
    s ∈ segments ∨ s ∈ stack ∨ s = dotDot ∧ rooted = false := by
  induction segments generalizing stack with
  | nil => exact .inr (.inl h)
  | cons a rest ih =>
    rcases ih h with h | h | h
    · exact .inl (List.mem_cons_of_mem a h)
    · rcases mem_step h with rfl | h
      · exact .inl (List.mem_cons_self ..)
      · exact .inr h
    · exact .inr (.inr h)

theorem not_mem_text {r : Root} (hr : r.Upper) : '#' ∉ r.text := by
  cases r with
  | slash => decide
  | drive letter =>
    intro hmem
    rw [Root.text, hr.2] at hmem
    rcases List.mem_cons.mp hmem with heq | hmem
    · rw [Root.Upper, ← heq] at hr
      exact absurd hr.1 (by decide)
    · exact absurd hmem (by decide)

/-- An anchor begins behind the root. -/
theorem Cleaned.cut (h : p.Cleaned r S) {before after : List Char}
    (hcut : Text.cutFirst '#' p.text.toList = some (before, after)) :
    ∃ front, before = r.text ++ front ∧ join S = front ++ '#' :: after := by
  have htext := Text.eq_of_cutFirst hcut
  rw [h.text] at htext
  rcases List.append_eq_append_iff.mp htext with ⟨front, hbefore, hjoin⟩ | ⟨middle, hroot, hjoin⟩
  · exact ⟨front, hbefore, hjoin⟩
  · cases middle with
    | nil => exact ⟨[], by rw [hroot, List.append_nil, List.append_nil], hjoin.symm⟩
    | cons ch middle =>
      obtain ⟨rfl, -⟩ := List.cons.inj hjoin
      refine absurd ?_ (not_mem_text h.root)
      rw [hroot]
      exact List.mem_append_right _ (List.mem_cons_self ..)

/-- A path that stays, cut where an anchor begins and cleaned, stays and has no anchor. -/
theorem cut_of_reread (hroot : Rooted root) (h : p.Cleaned r S) (hp : reread root p = p) :
    ∃ S', (ofText (FileTable.splitAnchor p.text).1).Cleaned r S' ∧
      reread root (ofText (FileTable.splitAnchor p.text).1) =
        ofText (FileTable.splitAnchor p.text).1 ∧
      '#' ∉ (ofText (FileTable.splitAnchor p.text).1).text.toList := by
  rw [FileTable.splitAnchor]
  cases hcut : Text.cutFirst '#' p.text.toList with
  | none =>
    simp only [h.ofText]
    exact ⟨S, h, hp, Text.cutFirst_eq_none.mp hcut⟩
  | some cut =>
    obtain ⟨before, after⟩ := cut
    obtain ⟨front, rfl, hjoin⟩ := h.cut hcut
    have hbackslash : '\\' ∉ r.text ++ front := fun hmem => h.backslash (by
      rw [Text.eq_of_cutFirst hcut]
      exact List.mem_append_left _ hmem)
    have hslashes : slashed (String.ofList (r.text ++ front)).toList = r.text ++ front := by
      rw [String.toList_ofList]
      exact slashed_of_not_mem hbackslash
    obtain ⟨r', htext, hcleaned⟩ := cleaned_ofText hslashes (root?_text h.root front)
    rw [segments_text h.root] at hcleaned
    have hq : (ofText (String.ofList (r.text ++ front))).Cleaned r (cancel true (split front)) :=
      ⟨hcleaned.text.trans (by rw [htext]), h.root, hcleaned.plain⟩
    refine ⟨_, hq, ?_, fun hmem => ?_⟩
    · cases r with
      | drive letter => exact reread_drive hroot hq
      | slash =>
        -- The whole path stays, so nothing in it reads as a drive, nor does what is left of it.
        refine reread_clear hroot hq (clear_of_cut h.plain (Classical.byContradiction fun hnot => ?_)
          hjoin)
        obtain ⟨letter, S', hdrive⟩ := reread_of_not_clear hroot h hnot
        rw [hp] at hdrive
        exact absurd (h.root?.symm.trans hdrive.root?) (by simp)
    · change '#' ∈ (ofText (String.ofList (r.text ++ front))).text.toList at hmem
      rw [hq.text] at hmem
      rcases List.mem_append.mp hmem with hmem | hmem
      · exact not_mem_text h.root hmem
      · obtain ⟨s, hs, hmem⟩ := (mem_join hmem).resolve_left (by decide)
        rw [cancel, List.mem_reverse] at hs
        have hsplit := (mem_foldl_step hs).resolve_right (by simp)
        exact Text.not_mem_of_cutFirst hcut
          (List.mem_append_right _ ((mem_split hsplit).2.2 '#' hmem))

/-! ### Rooted paths -/

/-- A cleaned text that is rooted. -/
def Absolute (p : Path) : Prop := (∃ text, p = ofText text) ∧ p.isAbsolute = true

/-- A path on a drive, as it stands, becomes a cleaned path on a drive. -/
theorem exists_cleaned_of_drive (hroot : Rooted root) {letter : Char}
    (h : root? p.text.toList = some (.drive letter)) (hbackslash : '\\' ∉ p.text.toList) :
    ∃ letter' S, (reread root p).Cleaned (.drive letter') S := by
  have habsolute : p.isAbsolute = true := by rw [isAbsolute, h]; rfl
  have hsource : Path.cleaned root.toList = (ofText root).text.toList := by
    rw [ofText, String.toList_ofList]
  have hrelative : p.relativeTo root = p.text := by
    rw [relativeTo, hsource]
    simp only [hroot.cleaned.root?, h]
    rfl
  have hslashed := slashed_of_not_mem hbackslash
  obtain ⟨r', htext, hcleaned⟩ := cleaned_ofText hslashed h
  have hreread : reread root p = ofText p.text := by
    rw [reread, if_pos habsolute, hrelative, Path.resolve, hslashed, h, String.ofList_toList]
    rfl
  cases r' with
  | slash => exact absurd htext (by simp [Root.text])
  | drive other => exact ⟨other, _, hreread ▸ hcleaned⟩

/-- A text that was cleaned is a rooted path, or begins with a drive by what was left out. -/
theorem Absolute.cases (h : p.Absolute) : (∃ r S, p.Cleaned r S) ∨
    ∃ letter, root? p.text.toList = some (.drive letter) ∧ '\\' ∉ p.text.toList := by
  obtain ⟨⟨text, rfl⟩, habsolute⟩ := h
  cases hroot : root? (slashed text.toList) with
  | some r =>
    obtain ⟨r', -, hcleaned⟩ := cleaned_ofText rfl hroot
    exact .inl ⟨r', _, hcleaned⟩
  | none =>
    -- Without a root the text is its segments alone, and what it begins with is the first of them.
    refine .inr ?_
    have htext : (ofText text).text.toList =
        if (join (cancel false (segments (slashed text.toList)))).isEmpty then dot
        else join (cancel false (segments (slashed text.toList))) := by
      rw [ofText, String.toList_ofList, cleaned]
      simp only [hroot]
    have hsegments : ∀ s ∈ cancel false (segments (slashed text.toList)),
        s ≠ [] ∧ '/' ∉ s ∧ '\\' ∉ s := by
      intro s hs
      rw [cancel, List.mem_reverse] at hs
      rcases mem_foldl_step hs with hs | hs | ⟨rfl, -⟩
      · obtain ⟨hne, hslash, hmem⟩ := mem_split hs
        refine ⟨hne, hslash, fun hbackslash => not_mem_slashed text.toList ?_⟩
        have hbody := hmem _ hbackslash
        rw [body] at hbody
        split at hbody
        · exact List.mem_of_mem_drop hbody
        · exact hbody
      · exact absurd hs List.not_mem_nil
      · decide
    rw [isAbsolute, htext] at habsolute
    rw [htext]
    cases hkept : cancel false (segments (slashed text.toList)) with
    | nil =>
      rw [hkept] at habsolute
      exact absurd habsolute (by decide)
    | cons d more =>
      rw [hkept] at habsolute hsegments
      obtain ⟨hne, hslash, -⟩ := hsegments d (List.mem_cons_self ..)
      have hbackslash : '\\' ∉ join (d :: more) :=
        not_mem_join (by decide) fun s hs => (hsegments s hs).2.2
      have hfilled : (join (d :: more)).isEmpty = false := by
        obtain ⟨ch, others, rfl⟩ := List.exists_cons_of_ne_nil hne
        cases more with
        | nil => rw [join_singleton]; rfl
        | cons next rest => rw [join_cons_cons]; rfl
      rw [hfilled, if_neg Bool.false_ne_true] at habsolute ⊢
      rw [root?_join hne hslash] at habsolute ⊢
      obtain ⟨letter, hletter⟩ := Option.isSome_iff_exists.mp (Option.isSome_map.symm.trans habsolute)
      exact ⟨letter, by rw [hletter]; rfl, hbackslash⟩

/-- A path that was written and read is cleaned and stays. -/
theorem Absolute.reread (hroot : Rooted root) (h : p.Absolute) :
    (∃ r S, (reread root p).Cleaned r S) ∧ reread root (reread root p) = reread root p := by
  rcases h.cases with ⟨r, S, hcleaned⟩ | ⟨letter, hdrive, hbackslash⟩
  · exact ⟨exists_cleaned_reread hroot hcleaned, reread_reread hroot hcleaned⟩
  · obtain ⟨letter', S, hcleaned⟩ := exists_cleaned_of_drive hroot hdrive hbackslash
    exact ⟨⟨_, S, hcleaned⟩, reread_drive hroot hcleaned⟩

end Path

end DocTree
