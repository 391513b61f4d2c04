import DocTree.Path

/-!
The shape of cleaned paths. A rooted path that was cleaned is its root and plain segments joined with
slashes, and cleaning leaves it as it is. Seen from a directory and resolved against it again, such a
path stays, unless what stands behind the directory looks like a drive; then it becomes the path on
that drive, which stays from then on.
-/

namespace DocTree

/-! ### Pieces -/

namespace Text

variable {sep : Char}

theorem pieces_ne_nil (s : List Char) : pieces sep s ≠ [] := by
  cases s with
  | nil => exact List.cons_ne_nil _ _
  | cons ch rest =>
    rw [pieces]
    split
    · exact List.cons_ne_nil _ _
    · split <;> exact List.cons_ne_nil _ _

theorem pieces_append (a b : List Char) :
    pieces sep (a ++ sep :: b) = pieces sep a ++ pieces sep b := by
  induction a with
  | nil =>
    have hsep : pieces sep (sep :: b) = [] :: pieces sep b := if_pos rfl
    rw [List.nil_append, hsep]
    rfl
  | cons ch rest ih =>
    rw [List.cons_append, pieces, pieces, ih]
    by_cases h : ch = sep
    · rw [if_pos h, if_pos h, List.cons_append]
    · rw [if_neg h, if_neg h]
      cases hrest : pieces sep rest with
      | nil => exact absurd hrest (pieces_ne_nil rest)
      | cons piece more => rfl

theorem pieces_of_not_mem {s : List Char} (h : sep ∉ s) : pieces sep s = [s] := by
  induction s with
  | nil => rfl
  | cons ch rest ih =>
    obtain ⟨hne, hrest⟩ := not_or.mp (mt List.mem_cons.mpr h)
    rw [pieces, if_neg (Ne.symm hne), ih hrest]

theorem mem_pieces {s piece : List Char} (h : piece ∈ pieces sep s) :
    ∀ ch ∈ piece, ch ≠ sep ∧ ch ∈ s := by
  induction s generalizing piece with
  | nil =>
    rw [List.mem_singleton.mp h]
    exact fun ch hch => nomatch hch
  | cons first rest ih =>
    rw [pieces] at h
    split at h
    · rcases List.mem_cons.mp h with rfl | h
      · exact fun ch hch => nomatch hch
      · exact fun ch hch => ⟨(ih h ch hch).1, List.mem_cons_of_mem _ (ih h ch hch).2⟩
    · next hne =>
      cases hrest : pieces sep rest with
      | nil => exact absurd hrest (pieces_ne_nil rest)
      | cons head more =>
        rw [hrest] at h ih
        rcases List.mem_cons.mp h with rfl | h
        · intro ch hch
          rcases List.mem_cons.mp hch with rfl | hch
          · exact ⟨hne, List.mem_cons_self ..⟩
          · obtain ⟨hsep, hmem⟩ := ih (List.mem_cons_self ..) ch hch
            exact ⟨hsep, List.mem_cons_of_mem _ hmem⟩
        · obtain hpiece := ih (List.mem_cons_of_mem _ h)
          exact fun ch hch => ⟨(hpiece ch hch).1, List.mem_cons_of_mem _ (hpiece ch hch).2⟩

end Text

namespace Path

/-! ### Segments -/

/-- The segments of a text that has no drive, empty ones left out. -/
def split (s : List Char) : List Segment :=
  (Text.pieces '/' s).filter fun segment => !segment.isEmpty

/-- A segment that stays when a path is cleaned. -/
structure Plain (segment : Segment) : Prop where
  ne_nil : segment ≠ []
  ne_dot : segment ≠ dot
  ne_dotDot : segment ≠ dotDot
  slash : '/' ∉ segment
  backslash : '\\' ∉ segment

theorem split_append (a b : List Char) : split (a ++ '/' :: b) = split a ++ split b := by
  rw [split, Text.pieces_append, List.filter_append, split, split]

theorem split_slash (s : List Char) : split ('/' :: s) = split s := split_append [] s

theorem split_of_not_mem {s : List Char} (hne : s ≠ []) (h : '/' ∉ s) : split s = [s] := by
  rw [split, Text.pieces_of_not_mem h]
  exact List.filter_cons_of_pos (by simpa using hne)

theorem mem_split {s segment : List Char} (h : segment ∈ split s) :
    segment ≠ [] ∧ '/' ∉ segment ∧ ∀ ch ∈ segment, ch ∈ s := by
  obtain ⟨hmem, hne⟩ := List.mem_filter.mp h
  refine ⟨by simpa using hne, fun hslash => (Text.mem_pieces hmem '/' hslash).1 rfl, fun ch hch => ?_⟩
  exact (Text.mem_pieces hmem ch hch).2

theorem join_cons_cons (a b : Segment) (rest : List Segment) :
    join (a :: b :: rest) = a ++ '/' :: join (b :: rest) := by
  simp [join, List.intercalate]

theorem join_singleton (a : Segment) : join [a] = a := by
  simp [join, List.intercalate]

/-- Segments that are joined are found again. -/
theorem split_join {segments : List Segment} (h : ∀ s ∈ segments, s ≠ [] ∧ '/' ∉ s) :
    split (join segments) = segments := by
  induction segments with
  | nil => rfl
  | cons a rest ih =>
    obtain ⟨hne, hslash⟩ := h a (List.mem_cons_self ..)
    cases rest with
    | nil => rw [join_singleton, split_of_not_mem hne hslash]
    | cons b rest =>
      rw [join_cons_cons, split_append, split_of_not_mem hne hslash,
        ih fun s hs => h s (List.mem_cons_of_mem a hs), List.singleton_append]

theorem mem_join {segments : List Segment} {ch : Char} (h : ch ∈ join segments) :
    ch = '/' ∨ ∃ s ∈ segments, ch ∈ s := by
  induction segments with
  | nil => cases h
  | cons a rest ih =>
    cases rest with
    | nil =>
      rw [join_singleton] at h
      exact .inr ⟨a, List.mem_cons_self .., h⟩
    | cons b rest =>
      rw [join_cons_cons] at h
      rcases List.mem_append.mp h with h | h
      · exact .inr ⟨a, List.mem_cons_self .., h⟩
      · rcases List.mem_cons.mp h with rfl | h
        · exact .inl rfl
        · exact (ih h).imp_right fun ⟨s, hs, hch⟩ => ⟨s, List.mem_cons_of_mem a hs, hch⟩

theorem not_mem_join {segments : List Segment} {ch : Char} (hch : ch ≠ '/')
    (h : ∀ s ∈ segments, ch ∉ s) : ch ∉ join segments := fun hmem =>
  (mem_join hmem).elim hch fun ⟨s, hs, hin⟩ => h s hs hin

/-! ### Going up -/

theorem step_dot (stack : List Segment) : step true stack dot = stack := if_pos rfl

theorem step_up (last : Segment) (below : List Segment) (h : last ≠ dotDot) :
    step true (last :: below) dotDot = below := if_pos h

theorem step_plain {segment : Segment} (hdot : segment ≠ dot) (hdotDot : segment ≠ dotDot)
    (stack : List Segment) : step true stack segment = segment :: stack := by
  rw [step.eq_def, if_neg hdot, if_neg hdotDot]

/-- Segments that are carried out from the root onto plain ones leave plain ones. -/
theorem plain_foldl_step {segments stack : List Segment}
    (hsegments : ∀ s ∈ segments, s ≠ [] ∧ '/' ∉ s ∧ '\\' ∉ s) (hstack : ∀ s ∈ stack, Plain s) :
    ∀ s ∈ segments.foldl (step true) stack, Plain s := by
  induction segments generalizing stack with
  | nil => exact hstack
  | cons a rest ih =>
    refine ih (fun s hs => hsegments s (List.mem_cons_of_mem a hs)) ?_
    obtain ⟨hne, hslash, hbackslash⟩ := hsegments a (List.mem_cons_self ..)
    by_cases hdot : a = dot
    · rw [hdot, step_dot]
      exact hstack
    · by_cases hdotDot : a = dotDot
      · cases stack with
        | nil =>
          rw [hdotDot]
          exact hstack
        | cons last below =>
          rw [hdotDot, step_up last below (hstack last (List.mem_cons_self ..)).ne_dotDot]
          exact fun s hs => hstack s (List.mem_cons_of_mem last hs)
      · rw [step_plain hdot hdotDot]
        intro s hs
        rcases List.mem_cons.mp hs with rfl | hs
        · exact ⟨hne, hdot, hdotDot, hslash, hbackslash⟩
        · exact hstack s hs

/-- Plain segments are taken onto the stack as they are. -/
theorem foldl_step_plain {segments : List Segment} (h : ∀ s ∈ segments, Plain s)
    (stack : List Segment) : segments.foldl (step true) stack = segments.reverse ++ stack := by
  induction segments generalizing stack with
  | nil => rfl
  | cons a rest ih =>
    have ha := h a (List.mem_cons_self ..)
    rw [List.foldl_cons, step_plain ha.ne_dot ha.ne_dotDot,
      ih (fun s hs => h s (List.mem_cons_of_mem a hs)), List.reverse_cons, List.append_assoc,
      List.singleton_append]

/-- Each segment that goes up takes one plain segment away. -/
theorem foldl_step_up {stack : List Segment} (h : ∀ s ∈ stack, Plain s) (n : Nat) :
    (List.replicate n dotDot).foldl (step true) stack = stack.drop n := by
  induction n generalizing stack with
  | zero => rfl
  | succ n ih =>
    rw [List.replicate_succ, List.foldl_cons]
    cases stack with
    | nil => exact (ih h).trans (List.drop_nil.trans List.drop_nil.symm)
    | cons last below =>
      rw [step_up last below (h last (List.mem_cons_self ..)).ne_dotDot, List.drop_succ_cons]
      exact ih fun s hs => h s (List.mem_cons_of_mem last hs)

theorem cancel_plain {segments : List Segment} (h : ∀ s ∈ segments, Plain s) :
    cancel true segments = segments := by
  rw [cancel, foldl_step_plain h, List.append_nil, List.reverse_reverse]

/-! ### Roots -/

/-- What holds of every letter is checked letter by letter. -/
theorem forall_alpha {P : Char → Prop}
    (h : ∀ n < 123, (Char.ofNat n).isAlpha = true → P (Char.ofNat n)) {letter : Char}
    (halpha : letter.isAlpha = true) : P letter := by
  have hlt : letter.toNat < 123 := by
    delta Char.isAlpha Char.isUpper Char.isLower at halpha
    simp only [Bool.or_eq_true, Bool.and_eq_true, decide_eq_true_eq, ge_iff_le,
      UInt32.le_iff_toNat_le] at halpha
    have hle : letter.val.toNat ≤ 90 ∨ letter.val.toNat ≤ 122 := halpha.imp And.right And.right
    have heq : letter.toNat = letter.val.toNat := rfl
    omega
  have hletter := h letter.toNat hlt
  rw [Char.ofNat_toNat] at hletter
  exact hletter halpha

theorem toUpper_of_isAlpha {letter : Char} (h : letter.isAlpha = true) :
    letter.toUpper.isAlpha = true ∧ letter.toUpper.toUpper = letter.toUpper :=
  forall_alpha
    (P := fun c => c.toUpper.isAlpha = true ∧ c.toUpper.toUpper = c.toUpper) (by decide) h

/-- A root as it stands in a cleaned path. -/
def Root.Upper : Root → Prop
  | .slash => True
  | .drive letter => letter.isAlpha = true ∧ letter.toUpper = letter

theorem drive?_slash (s : List Char) : drive? ('/' :: s) = none := by
  cases s with
  | nil => rfl
  | cons ch rest =>
    by_cases h : ch = ':'
    · rw [h]
      rfl
    · rw [drive?.eq_def]
      split
      · next heq => exact absurd (List.cons.inj (List.cons.inj heq).2).1 h
      · rfl

theorem root?_text {r : Root} (hr : r.Upper) (s : List Char) : root? (r.text ++ s) = some r := by
  cases r with
  | slash =>
    rw [root?, show Root.slash.text ++ s = '/' :: s from rfl, drive?_slash]
    rfl
  | drive letter =>
    have hdrive : drive? ((Root.drive letter).text ++ s) = some letter := by
      rw [Root.text, hr.2]
      exact if_pos hr.1
    rw [root?, hdrive]

theorem body_text {r : Root} (hr : r.Upper) (s : List Char) : body (r.text ++ s) = '/' :: s := by
  cases r with
  | slash =>
    rw [body, show Root.slash.text ++ s = '/' :: s from rfl, drive?_slash]
    rfl
  | drive letter =>
    have hdrive : drive? ((Root.drive letter).text ++ s) = some letter := by
      rw [Root.text, hr.2]
      exact if_pos hr.1
    rw [body, hdrive]
    rfl

theorem segments_text {r : Root} (hr : r.Upper) (s : List Char) :
    segments (r.text ++ s) = split s := by
  change split (body (r.text ++ s)) = split s
  rw [body_text hr, split_slash]

/-- A drive is told by a letter. -/
theorem isAlpha_of_root? {s : List Char} {letter : Char} (h : root? s = some (.drive letter)) :
    letter.isAlpha = true := by
  rw [root?] at h
  cases hdrive : drive? s with
  | none =>
    rw [hdrive] at h
    change (if _ then _ else _) = _ at h
    split at h <;> cases h
  | some found =>
    rw [hdrive] at h
    obtain rfl : found = letter := Root.drive.inj (Option.some.inj h)
    rw [drive?.eq_def] at hdrive
    split at hdrive
    · split at hdrive
      · next hfound => exact Option.some.inj hdrive ▸ hfound
      · cases hdrive
    · cases hdrive

/-- A root that is read has its cleaned form. -/
theorem exists_upper {s : List Char} {r : Root} (h : root? s = some r) :
    ∃ r' : Root, r'.Upper ∧ r'.text = r.text := by
  cases r with
  | slash => exact ⟨.slash, trivial, rfl⟩
  | drive letter =>
    obtain ⟨hupper, hsame⟩ := toUpper_of_isAlpha (isAlpha_of_root? h)
    refine ⟨.drive letter.toUpper, ⟨hupper, hsame⟩, ?_⟩
    rw [Root.text, Root.text, hsame]

/-! ### Cleaned paths -/

theorem slashed_of_not_mem {s : List Char} (h : '\\' ∉ s) : slashed s = s := by
  refine (List.map_congr_left fun ch hch => if_neg fun heq => ?_).trans (List.map_id s)
  exact h (heq ▸ hch)

theorem not_mem_slashed (s : List Char) : '\\' ∉ slashed s := by
  intro h
  obtain ⟨ch, -, hch⟩ := List.mem_map.mp h
  split at hch
  · exact absurd hch (by decide)
  · next hne => exact hne hch

/-- A path is a root and plain segments. -/
structure Cleaned (p : Path) (r : Root) (parts : List Segment) : Prop where
  text : p.text.toList = r.text ++ join parts
  root : r.Upper
  plain : ∀ s ∈ parts, Plain s

variable {p : Path} {r : Root} {parts : List Segment}

theorem Cleaned.root? (h : p.Cleaned r parts) : root? p.text.toList = some r := by
  rw [h.text, root?_text h.root]

theorem Cleaned.segments (h : p.Cleaned r parts) : segments p.text.toList = parts := by
  rw [h.text, segments_text h.root,
    split_join fun s hs => ⟨(h.plain s hs).ne_nil, (h.plain s hs).slash⟩]

theorem Cleaned.isAbsolute (h : p.Cleaned r parts) : p.isAbsolute = true := by
  rw [Path.isAbsolute, h.root?]
  rfl

theorem Cleaned.backslash (h : p.Cleaned r parts) : '\\' ∉ p.text.toList := by
  rw [h.text]
  intro hmem
  rcases List.mem_append.mp hmem with hmem | hmem
  · cases hr : r with
    | slash => rw [hr] at hmem; exact absurd hmem (by decide)
    | drive letter =>
      have hupper := h.root
      rw [hr] at hupper hmem
      rw [Root.text, hupper.2] at hmem
      rcases List.mem_cons.mp hmem with heq | hmem
      · rw [← heq] at hupper
        exact absurd hupper.1 (by decide)
      · exact absurd hmem (by decide)
  · exact not_mem_join (by decide) (fun s hs => (h.plain s hs).backslash) hmem

/-- A cleaned path is told by its root and its segments. -/
theorem Cleaned.ext {q : Path} (h : p.Cleaned r parts) (hq : q.Cleaned r parts) : p = q := by
  obtain ⟨s⟩ := p
  obtain ⟨t⟩ := q
  exact congrArg Path.mk (String.toList_inj.mp (h.text.trans hq.text.symm))

/-- What cleaning makes of a rooted text. -/
theorem cleaned_ofText {text : String} {s : List Char} (hs : slashed text.toList = s)
    (hroot : Path.root? s = some r) : ∃ r' : Root, r'.text = r.text ∧
      (ofText text).Cleaned r' (cancel true (Path.segments s)) := by
  obtain ⟨r', hupper, htext⟩ := exists_upper hroot
  refine ⟨r', htext, ?_, hupper, fun segment hsegment => ?_⟩
  · rw [ofText, String.toList_ofList, cleaned]
    simp only [hs, hroot, htext]
  · rw [cancel, List.mem_reverse] at hsegment
    refine plain_foldl_step (fun s' hs' => ?_) (fun _ hs' => (List.not_mem_nil hs').elim)
      segment hsegment
    obtain ⟨hne, hslash, hmem⟩ := mem_split hs'
    refine ⟨hne, hslash, fun hbackslash => not_mem_slashed text.toList ?_⟩
    rw [hs]
    have hbody := hmem _ hbackslash
    rw [body] at hbody
    split at hbody
    · exact List.mem_of_mem_drop hbody
    · exact hbody

/-- Cleaning leaves a cleaned path as it is. -/
theorem Cleaned.ofText (h : p.Cleaned r parts) : ofText p.text = p := by
  obtain ⟨r', htext, hcleaned⟩ := cleaned_ofText (slashed_of_not_mem h.backslash) h.root?
  rw [h.segments, cancel_plain h.plain] at hcleaned
  have hsame : (Path.ofText p.text).Cleaned r parts :=
    ⟨by rw [hcleaned.text, htext], h.root, h.plain⟩
  exact hsame.ext h

end Path

end DocTree
