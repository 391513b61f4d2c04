import Mathlib.Data.List.Flatten
import DocTree.Symbol
import DocTree.Proofs.RoundTrip.Resolve

/-!
Paths seen from any directory, on a drive or not, cleaned or not. A path seen from a directory and
resolved against it is the path again, with two exceptions. Behind the directory a segment may look
like a drive: in front of a relative text it is taken for one. And a text may have been cleaned as a
relative one although what is left begins with a drive: it is cleaned once more.
-/

namespace DocTree

namespace Path

variable {root : String} {p : Path} {r R : Root} {S U : List Segment}

/-! ### Fewer letters -/

/-- Carrying out segments drops some and keeps the order of the others. -/
theorem sublist_foldl_step (segments stack : List Segment) :
    (segments.foldl (step true) stack).reverse.Sublist (stack.reverse ++ segments) := by
  induction segments generalizing stack with
  | nil => simp
  | cons a rest ih =>
    have hstep : (step true stack a).reverse.Sublist (stack.reverse ++ [a]) := by
      rw [step.eq_def]
      split
      · exact List.sublist_append_left _ _
      · split
        · cases stack with
          | nil => simp
          | cons last below =>
            by_cases hlast : last ≠ dotDot
            · simp only [if_pos hlast, List.reverse_cons, List.append_assoc]
              exact List.sublist_append_left _ _
            · simp only [if_neg hlast, if_true]
              exact List.sublist_append_left _ _
        · simp
    exact (ih (step true stack a)).trans (by simpa using hstep.append_right rest)

theorem sublist_cancel (segments : List Segment) : (cancel true segments).Sublist segments :=
  sublist_foldl_step segments []

/-- Splitting leaves out the slashes and nothing else. -/
theorem flatten_split (s : List Char) : (split s).flatten = s.filter (· ≠ '/') := by
  have hpieces : (Text.pieces '/' s).flatten = s.filter (· ≠ '/') := by
    induction s with
    | nil => rfl
    | cons ch rest ih =>
      rw [Text.pieces]
      by_cases h : ch = '/'
      · simp [h, ih]
      · cases hrest : Text.pieces '/' rest with
        | nil => exact absurd hrest (Text.pieces_ne_nil rest)
        | cons head more =>
          rw [hrest] at ih
          simpa [h] using ih
  rw [← hpieces, split]
  generalize Text.pieces '/' s = pieces
  induction pieces with
  | nil => rfl
  | cons piece more ih => cases piece <;> simp_all

/-- A drive that is told by its letter takes more letters than what is left behind it. -/
theorem length_lt_of_drive? {s : List Char} {letter : Char} (h : drive? s = some letter) :
    (segments s).flatten.length < (s.filter (· ≠ '/')).length := by
  have hbody : body s = s.drop 2 := by rw [body, h]; rfl
  have hsplit : segments s = split (s.drop 2) := congrArg split hbody
  rw [hsplit, flatten_split]
  rw [drive?.eq_def] at h
  split at h
  · next first rest =>
    have hcolon : (':' :: rest).filter (· ≠ '/') = ':' :: rest.filter (· ≠ '/') :=
      List.filter_cons_of_pos (by decide)
    have hle := ((List.sublist_cons_self first (':' :: rest)).filter (· ≠ '/')).length_le
    rw [hcolon, List.length_cons] at hle
    exact hle
  · cases h

/-! ### Directories -/

/-- A directory that is rooted, as it is given. -/
def Anchored (root : String) : Prop := (root? (slashed root.toList)).isSome = true

/-- A drive or a slash in front stays there whatever is written behind. -/
theorem root?_append {s : List Char} (h : (root? s).isSome = true) (t : List Char) :
    root? (s ++ t) = root? s ∧ body (s ++ t) = body s ++ t := by
  cases s with
  | nil => cases h
  | cons first rest =>
    cases rest with
    | nil =>
      have hslash : first = '/' := Decidable.byContradiction fun hne => by
        simp [root?, drive?, hne] at h
      rw [hslash, List.singleton_append, root?_slash]
      exact ⟨rfl, by rw [body, drive?_slash]; rfl⟩
    | cons second others =>
      have hdrive : drive? (first :: second :: others ++ t) = drive? (first :: second :: others) :=
        drive?_cons_cons first second _ _
      constructor
      · rw [root?, root?, hdrive]
        rfl
      · rw [body, body, hdrive]
        split <;> rfl

theorem toList_ofText (text : String) : (ofText text).text.toList = Path.cleaned text.toList := by
  rw [ofText, String.toList_ofList]

/-- Such a directory is cleaned to a root and plain segments. -/
theorem Anchored.cleaned (h : Anchored root) :
    ∃ R, (ofText root).Cleaned R (segments (Path.cleaned root.toList)) := by
  obtain ⟨r, hr⟩ := Option.isSome_iff_exists.mp h
  obtain ⟨R, -, hcleaned⟩ := cleaned_ofText rfl hr
  have hsegments := hcleaned.segments
  rw [toList_ofText] at hsegments
  exact ⟨R, hsegments ▸ hcleaned⟩

/-- A relative text goes on from the directory. -/
theorem Anchored.resolve (h : Anchored root) (hroot : (ofText root).Cleaned R U) {w : List Char}
    (hbackslash : '\\' ∉ w) (hnone : root? w = none) :
    (resolve root (String.ofList w)).Cleaned R (((split w).foldl (step true) U.reverse).reverse) := by
  obtain ⟨r, hr⟩ := Option.isSome_iff_exists.mp h
  obtain ⟨hsame, hbody⟩ := root?_append h ('/' :: w)
  have hmem : '\\' ∉ slashed root.toList ++ '/' :: w := by
    intro hmem
    rcases List.mem_append.mp hmem with hmem | hmem
    · exact not_mem_slashed root.toList hmem
    · exact hbackslash ((List.mem_cons.mp hmem).resolve_left (by decide))
  have hslashes : slashed (String.ofList (slashed root.toList ++ '/' :: w)).toList =
      slashed root.toList ++ '/' :: w := by
    rw [String.toList_ofList, slashed_of_not_mem hmem]
  have hresolve : Path.resolve root (String.ofList w) =
      ofText (String.ofList (slashed root.toList ++ '/' :: w)) := by
    rw [Path.resolve, String.toList_ofList, slashed_of_not_mem hbackslash, hnone]
    rfl
  obtain ⟨r₁, htext₁, hcleaned₁⟩ := cleaned_ofText rfl hr
  obtain ⟨r₂, htext₂, hcleaned₂⟩ := cleaned_ofText hslashes (hsame.trans hr)
  have hR : R = r₁ := Option.some.inj (hroot.root?.symm.trans hcleaned₁.root?)
  have hU : U = cancel true (segments (slashed root.toList)) :=
    hroot.segments.symm.trans hcleaned₁.segments
  have hparts : cancel true (segments (slashed root.toList ++ '/' :: w)) =
      ((split w).foldl (step true) U.reverse).reverse := by
    have hsplit : segments (slashed root.toList ++ '/' :: w) =
        segments (slashed root.toList) ++ split w := by
      change split (body _) = split (body _) ++ _
      rw [hbody, split_append]
    rw [hsplit, cancel, List.foldl_append, hU, cancel, List.reverse_reverse]
  rw [hresolve]
  exact ⟨by rw [hcleaned₂.text, htext₂, ← htext₁, hR, hparts], hroot.root, hparts ▸ hcleaned₂.plain⟩

/-- Whatever is resolved against such a directory comes out cleaned. -/
theorem Anchored.exists_cleaned_resolve (h : Anchored root) (text : String) :
    ∃ r S, (Path.resolve root text).Cleaned r S := by
  rw [Path.resolve]
  cases hr : root? (slashed text.toList) with
  | some r =>
    have hslashes : slashed (String.ofList (slashed text.toList)).toList = slashed text.toList := by
      rw [String.toList_ofList, slashed_of_not_mem (not_mem_slashed _)]
    obtain ⟨r', -, hcleaned⟩ := cleaned_ofText hslashes hr
    exact ⟨r', _, hcleaned⟩
  | none =>
    obtain ⟨R, hroot⟩ := h.cleaned
    have hcleaned := h.resolve hroot (not_mem_slashed text.toList) hr
    rw [Path.resolve, String.toList_ofList, slashed_of_not_mem (not_mem_slashed _), hr] at hcleaned
    exact ⟨R, _, hcleaned⟩

/-! ### There and back -/

/-- The path stands behind the directory, and the next segment looks like a drive. -/
def GoesOnAsDrive (root : String) (p : Path) : Prop :=
  root? (Path.cleaned root.toList) = root? p.text.toList ∧
    ∃ d more, segments p.text.toList = segments (Path.cleaned root.toList) ++ d :: more ∧
      (drive? d).isSome = true

/-- A path on another root is written as it is. -/
theorem resolve_relativeTo_of_ne (hroot : (ofText root).Cleaned R U) (h : p.Cleaned r S)
    (hne : R ≠ r) : resolve root (p.relativeTo root) = p := by
  have hrelative : p.relativeTo root = p.text := by
    rw [relativeTo, ← toList_ofText]
    simp only [hroot.root?, h.root?, if_neg hne]
  rw [hrelative, resolve, slashed_of_not_mem h.backslash, h.root?, String.ofList_toList]
  exact h.ofText

theorem relativeTo_of_cleaned (hroot : (ofText root).Cleaned r U) (h : p.Cleaned r S) :
    p.relativeTo root =
      if (route U S).isEmpty then "." else String.ofList (join (route U S)) := by
  rw [relativeTo, ← toList_ofText]
  simp only [hroot.root?, hroot.segments, h.root?, h.segments, if_true]
  rfl

/-- Taken for a drive, the first segment of a relative text loses its letter and its colon, so the text
does not lead to what stands behind the directory. -/
theorem resolve_join_ne {d : Segment} {more : List Segment} (h : p.Cleaned r (U ++ d :: more))
    (hsplit : split (join (d :: more)) = d :: more) (hbackslash : '\\' ∉ join (d :: more))
    (hroot : root? (join (d :: more)) = some R) (hdrive : (drive? d).isSome = true) :
    resolve root (String.ofList (join (d :: more))) ≠ p := by
  intro heq
  obtain ⟨letter, hletter⟩ := Option.isSome_iff_exists.mp hdrive
  have hslashed : slashed (String.ofList (join (d :: more))).toList = join (d :: more) := by
    rw [String.toList_ofList, slashed_of_not_mem hbackslash]
  obtain ⟨r', -, hcleaned⟩ := cleaned_ofText hslashed hroot
  have hresolve : resolve root (String.ofList (join (d :: more))) =
      ofText (String.ofList (join (d :: more))) := by
    rw [resolve, hslashed, hroot]
    rfl
  rw [← hresolve, heq] at hcleaned
  have hfewer := length_lt_of_drive? ((drive?_join d more).trans hletter)
  have hkept := (sublist_cancel (segments (join (d :: more)))).flatten.length_le
  have hsame : U ++ d :: more = cancel true (segments (join (d :: more))) :=
    h.segments.symm.trans hcleaned.segments
  rw [← flatten_split, hsplit] at hfewer
  rw [← hsame, List.flatten_append, List.length_append] at hkept
  omega

/-- A path comes back unless the directory is left for something that looks like a drive. -/
theorem resolve_relativeTo_of_eq (hanchored : Anchored root) (hroot : (ofText root).Cleaned r U)
    (h : p.Cleaned r S) :
    resolve root (p.relativeTo root) = p ↔
      ¬ ∃ d more, S = U ++ d :: more ∧ (drive? d).isSome = true := by
  have hfold := foldl_step_route hroot.plain h.plain
  have hsegments := route_segments h.plain U
  rw [relativeTo_of_cleaned hroot h]
  cases hway : route U S with
  | nil =>
    rw [hway, List.foldl_nil] at hfold
    have hdot := hanchored.resolve hroot (w := dot) (by decide) (by decide)
    have hsplit : split dot = [dot] := by decide
    rw [hsplit, List.foldl_cons, step_dot, List.foldl_nil, hfold] at hdot
    refine iff_of_true (hdot.ext h) ?_
    rintro ⟨d, more, rfl, -⟩
    rw [route_append] at hway
    cases hway
  | cons d more =>
    rw [hway] at hfold hsegments
    obtain ⟨hne, hslash, -⟩ := hsegments d (List.mem_cons_self ..)
    have hbackslash : '\\' ∉ join (d :: more) :=
      not_mem_join (by decide) fun s hs => (hsegments s hs).2.2
    have hsplit : split (join (d :: more)) = d :: more :=
      split_join fun s hs => ⟨(hsegments s hs).1, (hsegments s hs).2.1⟩
    have hroot? := root?_join hne hslash more
    rw [if_neg (by simp)]
    -- A way that begins with a drive is taken for a path of its own; any other is followed.
    cases hdrive : drive? d with
    | none =>
      rw [hdrive] at hroot?
      have hcleaned := hanchored.resolve hroot hbackslash hroot?
      rw [hsplit, hfold] at hcleaned
      refine iff_of_true (hcleaned.ext h) ?_
      rintro ⟨d', more', rfl, hsome⟩
      rw [route_append] at hway
      rw [(List.cons.inj hway).1, hdrive] at hsome
      cases hsome
    | some letter =>
      rw [hdrive] at hroot?
      have hup : d ≠ dotDot := fun heq => by
        rw [heq, drive?_dotDot] at hdrive
        cases hdrive
      have hS : S = U ++ d :: more := eq_append_of_route hway hup
      have hsome : (drive? d).isSome = true := by rw [hdrive]; rfl
      exact iff_of_false (resolve_join_ne (hS ▸ h) hsplit hbackslash hroot? hsome)
        (not_not_intro ⟨d, more, hS, hsome⟩)

/-- A path that was cleaned to the end comes back unless it goes on as a drive; another one is cleaned. -/
theorem resolve_relativeTo_iff (hanchored : Anchored root) (hp : p.Absolute) :
    resolve root (p.relativeTo root) = p ↔ ofText p.text = p ∧ ¬ GoesOnAsDrive root p := by
  obtain ⟨R, hroot⟩ := hanchored.cleaned
  by_cases hcleaned : ∃ r S, p.Cleaned r S
  · obtain ⟨r, S, h⟩ := hcleaned
    have hR : root? (Path.cleaned root.toList) = some R := by rw [← toList_ofText, hroot.root?]
    rw [GoesOnAsDrive, hR, h.root?, h.segments]
    by_cases hsame : R = r
    · rw [resolve_relativeTo_of_eq hanchored (hsame ▸ hroot) h]
      simp [hsame, h.ofText]
    · have hback := resolve_relativeTo_of_ne hroot h hsame
      simp [hsame, h.ofText, hback]
  · have hne : ∀ text, resolve root text ≠ p := fun text heq =>
      hcleaned (heq ▸ hanchored.exists_cleaned_resolve text)
    refine iff_of_false (hne _) ?_
    rintro ⟨heq, -⟩
    rcases hp.cases with h | ⟨letter, hletter, hbackslash⟩
    · exact hcleaned h
    · obtain ⟨r', -, h⟩ := cleaned_ofText (slashed_of_not_mem hbackslash) hletter
      exact hcleaned ⟨r', _, heq ▸ h⟩

/-- A path seen from a directory and resolved against it is the path again exactly when it was cleaned
to the end and does not go on from the directory with what looks like a drive. The file of a symbol
that is written and read comes back in the same cases. -/
theorem resolve_relativeTo_eq_iff (hanchored : Anchored root) (hp : p.Absolute) :
    (resolve root (p.relativeTo root) = p ↔ ofText p.text = p ∧ ¬ GoesOnAsDrive root p) ∧
      ∀ (s : Symbol) (name : String), s.file = p →
        ((Symbol.ofSerialized root (s.serializedFile root) name).file = s.file ↔
          ofText p.text = p ∧ ¬ GoesOnAsDrive root p) := by
  have hback := resolve_relativeTo_iff hanchored hp
  refine ⟨hback, fun s name hs => ?_⟩
  have habsolute : s.file.isAbsolute = true := hs ▸ hp.2
  rw [Symbol.ofSerialized, Symbol.serializedFile, if_pos habsolute, hs]
  exact hback

/-- Beside the directory, on a drive in the other case. -/
theorem resolve_relativeTo_eq_iff_beside :
    Anchored "C:\\work\\..\\repo\\src" ∧ (ofText "c:/repo/lib/../docs/a.ts").Absolute ∧
      (ofText "c:/repo/lib/../docs/a.ts").relativeTo "C:\\work\\..\\repo\\src" = "../docs/a.ts" ∧
      resolve "C:\\work\\..\\repo\\src" "../docs/a.ts" = ofText "c:/repo/lib/../docs/a.ts" := by
  have hanchored : Anchored "C:\\work\\..\\repo\\src" := by rw [Anchored]; decide
  have hp : (ofText "c:/repo/lib/../docs/a.ts").Absolute := ⟨⟨_, rfl⟩, by decide⟩
  have hseen : (ofText "c:/repo/lib/../docs/a.ts").relativeTo "C:\\work\\..\\repo\\src" =
      "../docs/a.ts" := by decide
  refine ⟨hanchored, hp, hseen, ?_⟩
  rw [← hseen]
  refine (resolve_relativeTo_eq_iff hanchored hp).1.mpr ⟨by decide, ?_⟩
  rintro ⟨-, d, more, hbehind, -⟩
  have hdown : segments (ofText "c:/repo/lib/../docs/a.ts").text.toList =
      ["repo".toList, "docs".toList, "a.ts".toList] := by decide
  have hup : segments (Path.cleaned "C:\\work\\..\\repo\\src".toList) =
      ["repo".toList, "src".toList] := by decide
  rw [hdown, hup] at hbehind
  exact absurd (List.cons.inj (List.cons.inj hbehind).2).1 (by decide)

/-- Not every path comes back: behind the directory a segment may look like a drive. -/
theorem not_forall_resolve_relativeTo :
    ¬ ∀ root text : String, Anchored root → (ofText text).isAbsolute = true →
      resolve root ((ofText text).relativeTo root) = ofText text := by
  intro h
  have hback := h "/repo" "/repo/a:b.ts" (by rw [Anchored]; decide) (by decide)
  exact absurd hback (by decide)

end Path

end DocTree
