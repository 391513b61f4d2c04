import Mathlib.Logic.Relation
import DocTree.Proofs.RoundTrip.Relative

/-!
Cleaned paths as canonical forms. The segments behind a root may be cancelled one by one and in any
order: a segment that stays in place, one that goes up together with the one before it, and one that
goes up from the root. Carrying the segments out comes to the same before and after such a step, and
what it leaves has no step left. So a cleaned path is the one text that stands for all texts that begin
at its root and cancel to its segments.
-/

namespace DocTree.Path

/-! ### Cancelling -/

/-- One cancellation among segments that stand behind a root. -/
inductive Cancels : List Segment → List Segment → Prop
  | stay (before after : List Segment) : Cancels (before ++ dot :: after) (before ++ after)
  | back {last : Segment} (before after : List Segment) : last ≠ dot → last ≠ dotDot →
      Cancels (before ++ last :: dotDot :: after) (before ++ after)
  | top (after : List Segment) : Cancels (dotDot :: after) after

/-- Nothing is left to cancel. -/
def Settled (segments : List Segment) : Prop := ∀ s ∈ segments, s ≠ dot ∧ s ≠ dotDot

/-- Cancelling ends with these segments. -/
def CancelsTo (segments rest : List Segment) : Prop :=
  Relation.ReflTransGen Cancels segments rest ∧ Settled rest

variable {S T : List Segment}

/-- Carrying out segments comes to the same before and after a cancellation. -/
theorem Cancels.cancel_eq (h : Cancels S T) : cancel true S = cancel true T := by
  cases h with
  | stay before after => rw [cancel, cancel, List.foldl_append, List.foldl_append]; rfl
  | back before after hdot hdotDot =>
    rw [cancel, cancel, List.foldl_append, List.foldl_append, List.foldl_cons, List.foldl_cons,
      step_plain hdot hdotDot, step_up _ _ hdotDot]
  | top after => rfl

theorem foldl_step_settled (h : Settled S) (stack : List Segment) :
    S.foldl (step true) stack = S.reverse ++ stack := by
  induction S generalizing stack with
  | nil => rfl
  | cons a rest ih =>
    obtain ⟨hdot, hdotDot⟩ := h a (List.mem_cons_self ..)
    rw [List.foldl_cons, step_plain hdot hdotDot, ih fun s hs => h s (List.mem_cons_of_mem a hs),
      List.reverse_cons, List.append_assoc, List.singleton_append]

/-- Carrying out segments is cancelling them from the front; the stack holds what was cancelled. -/
theorem cancels_foldl_step {stack : List Segment} (hstack : Settled stack) (S : List Segment) :
    CancelsTo (stack.reverse ++ S) (S.foldl (step true) stack).reverse := by
  induction S generalizing stack with
  | nil =>
    rw [List.append_nil]
    exact ⟨.refl, fun s hs => hstack s (List.mem_reverse.mp hs)⟩
  | cons a rest ih =>
    rw [List.foldl_cons]
    by_cases hdot : a = dot
    · obtain ⟨hsteps, hsettled⟩ := ih hstack
      rw [hdot, step_dot]
      exact ⟨.head (.stay stack.reverse rest) hsteps, hsettled⟩
    · by_cases hdotDot : a = dotDot
      · cases stack with
        | nil =>
          obtain ⟨hsteps, hsettled⟩ := ih hstack
          rw [hdotDot]
          exact ⟨.head (.top rest) hsteps, hsettled⟩
        | cons last below =>
          obtain ⟨hlastDot, hlast⟩ := hstack last (List.mem_cons_self ..)
          obtain ⟨hsteps, hsettled⟩ := ih fun s hs => hstack s (List.mem_cons_of_mem last hs)
          rw [hdotDot, step_up last below hlast, List.reverse_cons, List.append_assoc,
            List.singleton_append]
          exact ⟨.head (.back below.reverse rest hlastDot hlast) hsteps, hsettled⟩
      · have hnext : Settled (a :: stack) := List.forall_mem_cons.mpr ⟨⟨hdot, hdotDot⟩, hstack⟩
        have hsame : stack.reverse ++ a :: rest = (a :: stack).reverse ++ rest := by simp
        rw [step_plain hdot hdotDot, hsame]
        exact ih hnext

/-- Whatever the order in which segments are cancelled, what is left is what carrying them out
leaves. -/
theorem cancelsTo_iff : CancelsTo S T ↔ T = cancel true S := by
  constructor
  · rintro ⟨hsteps, hsettled⟩
    have hsame : cancel true S = cancel true T := by
      clear hsettled
      induction hsteps with
      | refl => rfl
      | tail _ hstep ih => exact ih.trans hstep.cancel_eq
    rw [hsame, cancel, foldl_step_settled hsettled, List.append_nil, List.reverse_reverse]
  · rintro rfl
    have hnil : Settled [] := List.forall_mem_nil _
    exact cancels_foldl_step hnil S

/-! ### Roots -/

/-- The same root; the letters of drives are compared without regard to case. -/
def Root.Same : Root → Root → Prop
  | .slash, .slash => True
  | .drive a, .drive b => a.toLower = b.toLower
  | _, _ => False

theorem toUpper_eq_iff {a b : Char} (ha : a.isAlpha = true) (hb : b.isAlpha = true) :
    a.toUpper = b.toUpper ↔ a.toLower = b.toLower := by
  have hcases : ∀ {c : Char}, c.isAlpha = true →
      c.toUpper.toLower = c.toLower ∧ c.toLower.toUpper = c.toUpper :=
    forall_alpha (P := fun c => c.toUpper.toLower = c.toLower ∧ c.toLower.toUpper = c.toUpper)
      (by decide)
  constructor
  · intro h
    rw [← (hcases ha).1, ← (hcases hb).1, h]
  · intro h
    rw [← (hcases ha).2, ← (hcases hb).2, h]

/-- Cleaned roots are equal just when the roots are the same. -/
theorem Root.text_eq_iff {s t : List Char} {r r' : Root} (h : root? s = some r)
    (h' : root? t = some r') : r.text = r'.text ↔ r.Same r' := by
  cases r with
  | slash => cases r' <;> simp [Root.text, Root.Same]
  | drive a =>
    cases r' with
    | slash => simp [Root.text, Root.Same]
    | drive b =>
      have hiff := toUpper_eq_iff (isAlpha_of_root? h) (isAlpha_of_root? h')
      simpa [Root.text, Root.Same] using hiff

theorem isUpper_toUpper {letter : Char} (h : letter.isAlpha = true) : letter.toUpper.isUpper = true :=
  forall_alpha (P := fun c => c.toUpper.isUpper = true) (by decide) h

/-! ### Canonical forms -/

/-- A path is the canonical form of a rooted text: its text is the root of the text, with the letter of
a drive in upper case, and behind it, joined with slashes, the segments to which those of the text
cancel. -/
structure Canonical (text : String) (p : Path) : Prop where
  absolute : p.isAbsolute = true
  backslash : '\\' ∉ p.text.toList
  shape : ∃ r parts, root? (slashed text.toList) = some r ∧
    CancelsTo (segments (slashed text.toList)) parts ∧ p.text.toList = r.text ++ join parts
  upper : ∀ letter, root? p.text.toList = some (.drive letter) → letter.isUpper = true
  parts : ∀ part ∈ segments p.text.toList, part ≠ [] ∧ part ≠ dot ∧ part ≠ dotDot ∧ '/' ∉ part
  again : ofText p.text = p

/-- Two texts begin at the same root. -/
def SameRoot (s t : String) : Prop :=
  ∃ r r', root? (slashed s.toList) = some r ∧ root? (slashed t.toList) = some r' ∧ r.Same r'

/-- The segments of two texts cancel to the same ones. -/
def SameSegments (s t : String) : Prop :=
  ∃ S, CancelsTo (segments (slashed s.toList)) S ∧ CancelsTo (segments (slashed t.toList)) S

/-- Cleaning a rooted text gives its canonical form. -/
theorem canonical_ofText {s : String} (hs : Anchored s) : Canonical s (ofText s) := by
  obtain ⟨r, hr⟩ := Option.isSome_iff_exists.mp hs
  obtain ⟨r', htext, hcleaned⟩ := cleaned_ofText rfl hr
  refine ⟨hcleaned.isAbsolute, hcleaned.backslash, ?_, fun letter hletter => ?_, fun part hpart => ?_,
    hcleaned.ofText⟩
  · exact ⟨r, _, hr, cancelsTo_iff.mpr rfl, by rw [hcleaned.text, htext]⟩
  · obtain rfl : r' = .drive letter := Option.some.inj (hcleaned.root?.symm.trans hletter)
    rw [← hcleaned.root.2]
    exact isUpper_toUpper hcleaned.root.1
  · rw [hcleaned.segments] at hpart
    have hplain := hcleaned.plain part hpart
    exact ⟨hplain.ne_nil, hplain.ne_dot, hplain.ne_dotDot, hplain.slash⟩

/-- A cleaned text begins with its root, and its segments are what carrying out leaves. -/
theorem ofText_eq_iff {s t : String} (hs : Anchored s) (ht : Anchored t) :
    ofText s = ofText t ↔ SameRoot s t ∧ SameSegments s t := by
  obtain ⟨r, hr⟩ := Option.isSome_iff_exists.mp hs
  obtain ⟨q, hq⟩ := Option.isSome_iff_exists.mp ht
  obtain ⟨r', htext, hcleaned⟩ := cleaned_ofText rfl hr
  obtain ⟨q', htext', hcleaned'⟩ := cleaned_ofText rfl hq
  constructor
  · intro heq
    have hroot := hcleaned.root?
    rw [heq, hcleaned'.root?] at hroot
    have hsame : r.text = q.text := by rw [← htext, ← htext', Option.some.inj hroot]
    have hsegments := hcleaned.segments
    rw [heq, hcleaned'.segments] at hsegments
    exact ⟨⟨r, q, hr, hq, (Root.text_eq_iff hr hq).mp hsame⟩,
      ⟨_, cancelsTo_iff.mpr rfl, cancelsTo_iff.mpr hsegments.symm⟩⟩
  · rintro ⟨⟨a, b, ha, hb, hsame⟩, ⟨S, hS, hS'⟩⟩
    obtain rfl : a = r := Option.some.inj (ha.symm.trans hr)
    obtain rfl : b = q := Option.some.inj (hb.symm.trans hq)
    rw [cancelsTo_iff] at hS hS'
    rw [← hS] at hcleaned
    rw [← hS'] at hcleaned'
    have hroots : r'.text = q'.text := by rw [htext, htext', (Root.text_eq_iff hr hq).mpr hsame]
    have htexts := hcleaned.text.trans ((congrArg (· ++ join S) hroots).trans hcleaned'.text.symm)
    exact congrArg Path.mk (String.toList_inj.mp htexts)

/-- Cleaning gives every rooted text its canonical form, and two texts have the same one exactly when
they begin at the same root and their segments cancel to the same ones. -/
theorem ofText_canonical {s t : String} (hs : Anchored s) (ht : Anchored t) :
    Canonical s (ofText s) ∧ (ofText s = ofText t ↔ SameRoot s t ∧ SameSegments s t) :=
  ⟨canonical_ofText hs, ofText_eq_iff hs ht⟩

/-- Two ways to a file on a drive, one of them over the root and back. -/
theorem ofText_canonical_drive :
    Anchored "c:\\..\\repo\\.\\lib\\..\\\\a.ts" ∧ Anchored "C:/repo//docs/../a.ts/." ∧
      Canonical "c:\\..\\repo\\.\\lib\\..\\\\a.ts" ⟨"C:/repo/a.ts"⟩ ∧
      SameRoot "c:\\..\\repo\\.\\lib\\..\\\\a.ts" "C:/repo//docs/../a.ts/." ∧
      SameSegments "c:\\..\\repo\\.\\lib\\..\\\\a.ts" "C:/repo//docs/../a.ts/." := by
  have hs : Anchored "c:\\..\\repo\\.\\lib\\..\\\\a.ts" := by rw [Anchored]; decide
  have ht : Anchored "C:/repo//docs/../a.ts/." := by rw [Anchored]; decide
  have htext : ofText "c:\\..\\repo\\.\\lib\\..\\\\a.ts" = ⟨"C:/repo/a.ts"⟩ := by decide
  have htext' : ofText "C:/repo//docs/../a.ts/." = ⟨"C:/repo/a.ts"⟩ := by decide
  obtain ⟨hcanonical, hiff⟩ := ofText_canonical hs ht
  obtain ⟨hroot, hsegments⟩ := hiff.mp (htext.trans htext'.symm)
  exact ⟨hs, ht, htext ▸ hcanonical, hroot, hsegments⟩

end DocTree.Path
