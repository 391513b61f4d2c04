import DocTree.Proofs.RoundTrip.Relative

/-!
The shape of cleaned texts, rooted or not. Behind its root, a cleaned text has some segments that go up,
none of them behind a root, and then plain ones. So a text that is set behind a `#` is cleaned together
with what stands before it, and it stays as it is exactly when its segments behind the first are plain.
-/

namespace DocTree

/-! ### Pieces of two texts in a row -/

namespace Text

variable {sep : Char} {s t u : List Char}

theorem cutFirst_append (h : sep ∉ s) : cutFirst sep (s ++ sep :: t) = some (s, t) := by
  induction s with
  | nil => exact if_pos rfl
  | cons ch rest ih =>
    obtain ⟨hne, hrest⟩ := not_or.mp (mt List.mem_cons.mpr h)
    rw [List.cons_append, cutFirst, if_neg (Ne.symm hne), ih hrest]
    rfl

theorem cutLast_eq_none : cutLast sep s = none ↔ sep ∉ s := by
  induction s with
  | nil => simp [cutLast]
  | cons ch rest ih =>
    rw [cutLast, List.mem_cons, not_or, ← ih]
    cases cutLast sep rest with
    | none => simp [eq_comm]
    | some cut => simp

/-- The last piece of a text and the first of the next make up one piece. -/
theorem exists_pieces_append (sep : Char) (s : List Char) : ∃ before last, pieces sep s = before ++ [last] ∧
    ∀ {t first more}, pieces sep t = first :: more →
      pieces sep (s ++ t) = before ++ (last ++ first) :: more := by
  induction s with
  | nil => exact ⟨[], [], rfl, fun h => h⟩
  | cons ch rest ih =>
    obtain ⟨before, last, hrest, happend⟩ := ih
    by_cases hch : ch = sep
    · refine ⟨[] :: before, last, ?_, fun h => ?_⟩
      · rw [pieces, if_pos hch, hrest, List.cons_append]
      · rw [List.cons_append, pieces, if_pos hch, happend h, List.cons_append]
    · cases before with
      | nil =>
        refine ⟨[], ch :: last, ?_, fun h => ?_⟩
        · rw [pieces, if_neg hch, hrest]
          rfl
        · rw [List.cons_append, pieces, if_neg hch, happend h]
          rfl
      | cons piece before =>
        refine ⟨(ch :: piece) :: before, last, ?_, fun h => ?_⟩
        · rw [pieces, if_neg hch, hrest]
          rfl
        · rw [List.cons_append, pieces, if_neg hch, happend h]
          rfl

end Text

namespace Path

variable {rooted : Bool} {s f a : List Char} {stack L : List Segment}

theorem join_pieces (s : List Char) : join (Text.pieces '/' s) = s := by
  induction s with
  | nil => rfl
  | cons ch rest ih =>
    rw [Text.pieces]
    cases hrest : Text.pieces '/' rest with
    | nil => exact absurd hrest (Text.pieces_ne_nil rest)
    | cons piece more =>
      rw [hrest] at ih
      by_cases hch : ch = '/'
      · rw [if_pos hch, join_cons_cons, ih, hch]
        rfl
      · rw [if_neg hch]
        cases more with
        | nil => rw [join_singleton] at ih ⊢; rw [ih]
        | cons next more => rw [join_cons_cons] at ih ⊢; rw [← ih]; rfl

theorem pieces_join (hne : L ≠ []) (h : ∀ s ∈ L, '/' ∉ s) : Text.pieces '/' (join L) = L := by
  induction L with
  | nil => exact absurd rfl hne
  | cons d more ih =>
    have hd := Text.pieces_of_not_mem (h d List.mem_cons_self)
    cases more with
    | nil => rw [join_singleton, hd]
    | cons next more =>
      rw [join_cons_cons, Text.pieces_append, hd,
        ih (List.cons_ne_nil next more) fun s hs => h s (List.mem_cons_of_mem d hs)]
      rfl

theorem join_ne_nil (hne : L ≠ []) (h : ∀ s ∈ L, s ≠ []) : join L ≠ [] := by
  cases L with
  | nil => exact absurd rfl hne
  | cons d more =>
    have hd := h d List.mem_cons_self
    cases more with
    | nil => rwa [join_singleton]
    | cons next more =>
      rw [join_cons_cons]
      exact List.append_ne_nil_of_left_ne_nil hd _

/-- Segments with something behind them that may be empty. -/
theorem split_join_append (h : ∀ s ∈ L, s ≠ [] ∧ '/' ∉ s) (last : List Char) :
    split (join (L ++ [last])) = L ++ split last := by
  induction L with
  | nil => rw [List.nil_append, join_singleton, List.nil_append]
  | cons d more ih =>
    obtain ⟨hne, hslash⟩ := h d List.mem_cons_self
    obtain ⟨next, others, hmore⟩ : ∃ next others, more ++ [last] = next :: others :=
      List.exists_cons_of_ne_nil (List.append_ne_nil_of_right_ne_nil _ (List.cons_ne_nil _ _))
    rw [List.cons_append, hmore, join_cons_cons, split_append, ← hmore,
      ih fun s hs => h s (List.mem_cons_of_mem d hs), split_of_not_mem hne hslash]
    rfl

/-- A text may stand anywhere behind the last of the segments that are joined. -/
theorem join_append_hash (L : List Segment) (last first : Segment) (more : List Segment) :
    join (L ++ (last ++ '#' :: first) :: more) = join (L ++ [last]) ++ '#' :: join (first :: more) := by
  induction L with
  | nil =>
    cases more with
    | nil => simp only [List.nil_append, join_singleton]
    | cons next more =>
      rw [List.nil_append, List.nil_append, join_cons_cons, join_cons_cons, join_singleton,
        List.append_assoc, List.cons_append]
  | cons d rest ih =>
    have hjoin (tail : List Segment) (hne : rest ++ tail ≠ []) :
        join (d :: rest ++ tail) = d ++ '/' :: join (rest ++ tail) := by
      obtain ⟨next, others, heq⟩ := List.exists_cons_of_ne_nil hne
      rw [List.cons_append, heq, join_cons_cons]
    rw [hjoin _ (List.append_ne_nil_of_right_ne_nil _ (List.cons_ne_nil _ _)), ih,
      hjoin _ (List.append_ne_nil_of_right_ne_nil _ (List.cons_ne_nil _ _)), List.append_assoc,
      List.cons_append]

/-! ### Stacks -/

/-- A stack as cleaning leaves it: plain segments on top of some that go up; from a root none go up. -/
def Stacked (rooted : Bool) (stack : List Segment) : Prop :=
  ∃ plain n, stack = plain ++ List.replicate n dotDot ∧ (∀ s ∈ plain, Plain s) ∧
    (rooted = true → n = 0)

theorem stacked_nil (rooted : Bool) : Stacked rooted [] :=
  ⟨[], 0, rfl, List.forall_mem_nil _, fun _ => rfl⟩

theorem step_other (hdot : a ≠ dot) (hdotDot : a ≠ dotDot) (stack : List Segment) :
    step rooted stack a = a :: stack := by
  rw [step.eq_def, if_neg hdot, if_neg hdotDot]

theorem Stacked.step (h : Stacked rooted stack) (ha : a ≠ [] ∧ '/' ∉ a ∧ '\\' ∉ a) :
    Stacked rooted (step rooted stack a) := by
  obtain ⟨plain, n, rfl, hplain, hn⟩ := h
  by_cases hdot : a = dot
  · rw [hdot]
    exact ⟨plain, n, rfl, hplain, hn⟩
  · by_cases hdotDot : a = dotDot
    · subst hdotDot
      cases plain with
      | cons top below =>
        have htop := (hplain top List.mem_cons_self).ne_dotDot
        exact ⟨below, n, if_pos htop, fun s hs => hplain s (List.mem_cons_of_mem top hs), hn⟩
      | nil =>
        cases rooted with
        | true =>
          obtain rfl := hn rfl
          exact stacked_nil true
        | false =>
          refine ⟨[], n + 1, ?_, List.forall_mem_nil _, fun h => nomatch h⟩
          cases n <;> rfl
    · refine ⟨a :: plain, n, step_other hdot hdotDot _, fun s hs => ?_, hn⟩
      rcases List.mem_cons.mp hs with rfl | hs
      · exact ⟨ha.1, hdot, hdotDot, ha.2.1, ha.2.2⟩
      · exact hplain s hs

theorem Stacked.foldl (h : Stacked rooted stack) (hL : ∀ s ∈ L, s ≠ [] ∧ '/' ∉ s ∧ '\\' ∉ s) :
    Stacked rooted (L.foldl (Path.step rooted) stack) := by
  induction L generalizing stack with
  | nil => exact h
  | cons d more ih =>
    exact ih (h.step (hL d List.mem_cons_self)) fun s hs => hL s (List.mem_cons_of_mem d hs)

theorem Stacked.mem (h : Stacked rooted stack) (hs : s ∈ stack) : s ≠ [] ∧ '/' ∉ s ∧ '\\' ∉ s := by
  obtain ⟨plain, n, rfl, hplain, -⟩ := h
  rcases List.mem_append.mp hs with hs | hs
  · have h := hplain s hs
    exact ⟨h.ne_nil, h.slash, h.backslash⟩
  · rw [List.eq_of_mem_replicate hs]
    decide

/-- Plain segments are taken onto any stack as they are. -/
theorem foldl_step_other (h : ∀ s ∈ L, s ≠ dot ∧ s ≠ dotDot) (stack : List Segment) :
    L.foldl (step rooted) stack = L.reverse ++ stack := by
  induction L generalizing stack with
  | nil => rfl
  | cons d more ih =>
    obtain ⟨hdot, hdotDot⟩ := h d List.mem_cons_self
    rw [List.foldl_cons, step_other hdot hdotDot, ih fun s hs => h s (List.mem_cons_of_mem d hs),
      List.reverse_cons, List.append_assoc, List.singleton_append]

/-- The segments of a stack are taken onto it as they are. -/
theorem Stacked.foldl_reverse (h : Stacked rooted stack) :
    stack.reverse.foldl (Path.step rooted) [] = stack := by
  obtain ⟨plain, n, rfl, hplain, hn⟩ := h
  have hup : (List.replicate n dotDot).foldl (Path.step rooted) [] = List.replicate n dotDot := by
    cases rooted with
    | true => rw [hn rfl]; rfl
    | false =>
      clear hn
      induction n with
      | zero => rfl
      | succ n ih =>
        rw [List.replicate_succ', List.foldl_append, ih, ← List.replicate_succ']
        cases n <;> rfl
  rw [List.reverse_append, List.reverse_replicate, List.foldl_append, hup,
    foldl_step_other fun s hs => ?_, List.reverse_reverse]
  have h := hplain s (List.mem_reverse.mp hs)
  exact ⟨h.ne_dot, h.ne_dotDot⟩

/-! ### Roots -/

/-- What stands behind something that is no drive makes none of it. -/
theorem root?_append_cons {ch : Char} (hch : ch ≠ ':') (hne : s ≠ []) (t : List Char) :
    root? (s ++ ch :: t) = root? s ∧ body (s ++ ch :: t) = body s ++ ch :: t := by
  match s with
  | [] => exact absurd rfl hne
  | [first] =>
    have hnone : drive? [first] = none := rfl
    have hdrive : drive? ([first] ++ ch :: t) = none := by
      rw [drive?.eq_def]
      split
      · next heq => exact absurd (List.cons.inj (List.cons.inj heq).2).1 hch
      · rfl
    rw [root?, root?, body, body, hdrive, hnone]
    exact ⟨rfl, rfl⟩
  | first :: second :: rest =>
    have hdrive : drive? (first :: second :: rest ++ ch :: t) = drive? (first :: second :: rest) :=
      drive?_cons_cons first second _ _
    rw [root?, root?, body, body, hdrive]
    refine ⟨rfl, ?_⟩
    split <;> rfl

/-- A `#` makes no root of a text. -/
theorem root?_append_hash (s t : List Char) :
    root? (s ++ '#' :: t) = root? s ∧ body (s ++ '#' :: t) = body s ++ '#' :: t := by
  by_cases hne : s = []
  · subst hne
    have hdrive : drive? ('#' :: t) = none := by
      rw [drive?.eq_def]
      split
      · next first _ heq =>
        obtain rfl := (List.cons.inj heq).1
        rfl
      · rfl
    rw [List.nil_append, root?, body, hdrive]
    exact ⟨rfl, rfl⟩
  · exact root?_append_cons (by decide) hne t

theorem mem_of_mem_body {ch : Char} (h : ch ∈ body s) : ch ∈ s := by
  rw [body] at h
  split at h
  · exact List.mem_of_mem_drop h
  · exact h

theorem mem_segments (hs : '\\' ∉ s) (ha : a ∈ segments s) : a ≠ [] ∧ '/' ∉ a ∧ '\\' ∉ a := by
  obtain ⟨hne, hslash, hmem⟩ := mem_split ha
  exact ⟨hne, hslash, fun hbackslash => hs (mem_of_mem_body (hmem _ hbackslash))⟩

/-! ### Cleaned texts -/

/-- What stands in front of the segments of a cleaned text. -/
def front (s : List Char) : List Char := (root? s).elim [] Root.text

/-- The segments of a text that are left, the last on top. -/
def leftover (s : List Char) : List Segment :=
  (segments s).foldl (step (root? s).isSome) []

theorem stacked_leftover (hs : '\\' ∉ s) : Stacked (root? s).isSome (leftover s) :=
  (stacked_nil _).foldl fun _ ha => mem_segments hs ha

/-- What is cleaned is what stands in front and the segments that are left, if there is anything. -/
theorem cleaned_eq (hs : '\\' ∉ s) : cleaned s =
    if front s = [] ∧ leftover s = [] then dot else front s ++ join (leftover s).reverse := by
  have hcancel : cancel (root? s).isSome (segments s) = (leftover s).reverse := rfl
  rw [cleaned, slashed_of_not_mem hs, front]
  cases hroot : root? s with
  | some r =>
    rw [hroot] at hcancel
    have hne : r.text ≠ [] := by cases r <;> exact List.cons_ne_nil _ _
    rw [← hcancel]
    exact (if_neg fun h => hne h.1).symm
  | none =>
    rw [hroot] at hcancel
    change (if (join (cancel false (segments s))).isEmpty then _ else _) = _
    rw [show cancel false (segments s) = _ from hcancel, Option.elim_none, List.nil_append]
    by_cases hnil : leftover s = []
    · rw [hnil]
      rfl
    · have hne : join (leftover s).reverse ≠ [] := join_ne_nil (by simpa using hnil) fun a ha =>
        ((stacked_leftover hs).mem (List.mem_reverse.mp ha)).1
      rw [if_neg (by simpa using hne), if_neg fun h => hnil h.2]

/-- In front stands nothing, or one piece that ends with a slash. -/
theorem front_cases (s : List Char) :
    front s = [] ∨ ∃ piece, front s = piece ++ ['/'] ∧ '/' ∉ piece ∧ '#' ∉ piece := by
  rw [front]
  cases hroot : root? s with
  | none => exact .inl rfl
  | some r =>
    refine .inr ?_
    cases r with
    | slash => exact ⟨[], rfl, List.not_mem_nil, List.not_mem_nil⟩
    | drive letter =>
      refine ⟨[letter.toUpper, ':'], rfl, ?_⟩
      have hall := forall_alpha (P := fun c => '/' ∉ [c.toUpper, ':'] ∧ '#' ∉ [c.toUpper, ':'])
        (by decide) (isAlpha_of_root? hroot)
      exact hall

/-- A cleaned text that has a `#` begins with pieces that have none and goes on with plain segments. -/
theorem exists_pieces_cleaned (hs : '\\' ∉ s) (hhash : '#' ∈ cleaned s) :
    ∃ before plain, Text.pieces '/' (cleaned s) = before ++ plain ∧
      (∀ a ∈ before, '#' ∉ a) ∧ ∀ a ∈ plain, Plain a := by
  obtain ⟨plain, n, hleft, hplain, -⟩ := stacked_leftover hs
  have hslash : ∀ a ∈ (leftover s).reverse, '/' ∉ a := fun a ha =>
    ((stacked_leftover hs).mem (List.mem_reverse.mp ha)).2.1
  have hup : ∀ a ∈ List.replicate n dotDot, '#' ∉ a := fun a ha => by
    rw [List.eq_of_mem_replicate ha]
    decide
  have hreverse : (leftover s).reverse = List.replicate n dotDot ++ plain.reverse := by
    rw [hleft, List.reverse_append, List.reverse_replicate]
  rw [cleaned_eq hs] at hhash ⊢
  split at hhash
  · exact absurd hhash (by decide)
  · next hsome =>
    rw [if_neg hsome]
    have hplains : ∀ a ∈ plain.reverse, Plain a := fun a ha => hplain a (List.mem_reverse.mp ha)
    rcases front_cases s with hfront | ⟨piece, hfront, hpiece, hclear⟩
    · have hne : (leftover s).reverse ≠ [] := by simpa using fun h => hsome ⟨hfront, h⟩
      exact ⟨_, _, by rw [hfront, List.nil_append, pieces_join hne hslash, hreverse], hup, hplains⟩
    · have hne : (leftover s).reverse ≠ [] := by
        intro h
        rw [h, hfront] at hhash
        simp [join, hclear] at hhash
      refine ⟨piece :: List.replicate n dotDot, plain.reverse, ?_, ?_, hplains⟩
      · rw [hfront, List.append_assoc, List.singleton_append, Text.pieces_append,
          Text.pieces_of_not_mem hpiece, pieces_join hne hslash, hreverse]
        rfl
      · exact List.forall_mem_cons.mpr ⟨hclear, hup⟩

theorem hash_mem_of_slashed (h : '#' ∈ slashed s) : '#' ∈ s := by
  obtain ⟨ch, hch, heq⟩ := List.mem_map.mp h
  split at heq
  · exact absurd heq (by decide)
  · exact heq ▸ hch

theorem hash_not_mem_front (s : List Char) : '#' ∉ front s := by
  rcases front_cases s with hfront | ⟨piece, hfront, -, hclear⟩
  · rw [hfront]
    exact List.not_mem_nil
  · simp [hfront, hclear]

/-- Cleaning puts no `#` into a text. -/
theorem hash_mem_of_cleaned (h : '#' ∈ cleaned s) : '#' ∈ s := by
  have hsame : cleaned s = cleaned (slashed s) := by
    rw [cleaned, cleaned, slashed_of_not_mem (not_mem_slashed s)]
  rw [hsame, cleaned_eq (not_mem_slashed s)] at h
  refine hash_mem_of_slashed ?_
  split at h
  · exact absurd h (by decide)
  · have hjoin := (List.mem_append.mp h).resolve_left (hash_not_mem_front _)
    obtain ⟨a, ha, hmem⟩ := (mem_join hjoin).resolve_left (by decide)
    rcases mem_foldl_step (List.mem_reverse.mp ha) with ha | ha | ⟨rfl, -⟩
    · exact mem_of_mem_body ((mem_split ha).2.2 _ hmem)
    · cases ha
    · exact absurd hmem (by decide)

/-- A text stays as it is when it is cleaned behind a `#`: it has no backslash, and none of its segments
but the first is empty, stays in place or goes up. -/
def Stays (a : List Char) : Prop :=
  '\\' ∉ a ∧ ∀ piece ∈ (Text.pieces '/' a).tail, piece ≠ [] ∧ piece ≠ dot ∧ piece ≠ dotDot

/-- What stands behind a `#` in a cleaned text stays as it is. -/
theorem stays_of_cleaned {b : List Char} (hs : '\\' ∉ s) (h : cleaned s = b ++ '#' :: a) :
    Stays a := by
  obtain ⟨before, plain, hpieces, hbefore, hplain⟩ := exists_pieces_cleaned hs
    (h ▸ List.mem_append_right _ List.mem_cons_self)
  obtain ⟨init, last, -, happend⟩ := Text.exists_pieces_append '/' b
  obtain ⟨first, more, hmore⟩ := List.exists_cons_of_ne_nil (Text.pieces_ne_nil a : Text.pieces '/' a ≠ [])
  have hhash : Text.pieces '/' ('#' :: a) = ('#' :: first) :: more := by
    rw [Text.pieces, if_neg (by decide), hmore]
  rw [h, happend hhash] at hpieces
  -- The piece with the `#` is one of the plain ones, and so are those behind it.
  have hall : ∀ piece ∈ (last ++ '#' :: first) :: more, Plain piece := by
    have hmem : '#' ∈ last ++ '#' :: first := List.mem_append_right _ List.mem_cons_self
    rcases List.append_eq_append_iff.mp hpieces with ⟨middle, hbefore', hsame⟩ | ⟨middle, -, hsame⟩
    · cases middle with
      | nil => exact fun piece hpiece => hplain piece (hsame.trans (List.nil_append _) ▸ hpiece)
      | cons piece middle =>
        refine absurd hmem (hbefore _ ?_)
        rw [hbefore', ← (List.cons.inj hsame).1]
        exact List.mem_append_right _ List.mem_cons_self
    · exact fun piece hpiece => hplain piece (hsame ▸ List.mem_append_right _ hpiece)
  obtain ⟨hfirst, htail⟩ := List.forall_mem_cons.mp hall
  refine ⟨fun hbackslash => ?_, fun piece hpiece => ?_⟩
  · rw [← join_pieces a, hmore] at hbackslash
    obtain ⟨piece, hpiece, hmem⟩ := (mem_join hbackslash).resolve_left (by decide)
    rcases List.mem_cons.mp hpiece with rfl | hpiece
    · exact hfirst.backslash (List.mem_append_right _ (List.mem_cons_of_mem _ hmem))
    · exact (htail piece hpiece).backslash hmem
  · rw [hmore] at hpiece
    exact ⟨(htail piece hpiece).ne_nil, (htail piece hpiece).ne_dot, (htail piece hpiece).ne_dotDot⟩

/-- The segments of a text with a `#` behind it: those that are complete stay, and the last one goes on. -/
theorem exists_segments_hash (f : List Char) : ∃ complete last, '/' ∉ last ∧ last ⊆ f ∧
    (∀ a ∈ complete, a ≠ [] ∧ '/' ∉ a ∧ a ⊆ f) ∧ segments f = complete ++ split last ∧
    ∀ {a first more}, Text.pieces '/' a = first :: more → (∀ piece ∈ more, piece ≠ []) →
      segments (f ++ '#' :: a) = complete ++ (last ++ '#' :: first) :: more := by
  obtain ⟨init, last, hpieces, happend⟩ := Text.exists_pieces_append '/' (body f)
  have hclear {a : Segment} (ha : a ∈ Text.pieces '/' (body f)) : '/' ∉ a ∧ a ⊆ f :=
    ⟨fun h => (Text.mem_pieces ha _ h).1 rfl, fun _ h => mem_of_mem_body (Text.mem_pieces ha _ h).2⟩
  have hlast : '/' ∉ last ∧ last ⊆ f :=
    hclear (hpieces ▸ List.mem_append_right _ List.mem_cons_self)
  refine ⟨init.filter fun a => !a.isEmpty, last, hlast.1, hlast.2, fun a ha => ?_, ?_,
    fun {a first more} hmore hne => ?_⟩
  · obtain ⟨hmem, hne⟩ := List.mem_filter.mp ha
    exact ⟨by simpa using hne, hclear (hpieces ▸ List.mem_append_left _ hmem)⟩
  · rw [segments, hpieces, List.filter_append, split, Text.pieces_of_not_mem hlast.1]
  · have hhash : Text.pieces '/' ('#' :: a) = ('#' :: first) :: more := by
      rw [Text.pieces, if_neg (by decide), hmore]
    have hkept : more.filter (fun a => !a.isEmpty) = more :=
      List.filter_eq_self.mpr fun piece hpiece => by simpa using hne piece hpiece
    rw [segments, (root?_append_hash f a).2, happend hhash, List.filter_append,
      List.filter_cons_of_pos (by simp), hkept]

/-- A segment with a `#` in it is none that stays in place or goes up. -/
theorem ne_of_hash_mem (h : '#' ∈ a) : a ≠ dot ∧ a ≠ dotDot := by
  constructor
  · rintro rfl
    exact absurd h (by decide)
  · rintro rfl
    exact absurd h (by decide)

/-- A `#` keeps all that stands before it from being taken away, and a text that stays is left as it is
behind it. -/
theorem exists_cleaned_hash (hf : '\\' ∉ f) : ∃ stack last, Stacked (root? f).isSome stack ∧
    '/' ∉ last ∧ (∀ a ∈ stack.reverse ++ [last], ∀ ch ∈ a, ch ∈ f ∨ ch = '.') ∧
    leftover f = (split last).foldl (step (root? f).isSome) stack ∧
    ∀ {a}, Stays a →
      cleaned (f ++ '#' :: a) = front f ++ join (stack.reverse ++ [last]) ++ '#' :: a := by
  obtain ⟨complete, last, hslash, hlast, hcomplete, hsegments, hhash⟩ := exists_segments_hash f
  refine ⟨complete.foldl (step (root? f).isSome) [], last,
    (stacked_nil _).foldl fun s hs => ⟨(hcomplete s hs).1, (hcomplete s hs).2.1,
      fun h => hf ((hcomplete s hs).2.2 h)⟩, hslash, fun a ha ch hch => ?_,
    by rw [leftover, hsegments, List.foldl_append], fun {a} ha => ?_⟩
  · rcases List.mem_append.mp ha with ha | ha
    · rcases mem_foldl_step (List.mem_reverse.mp ha) with ha | ha | ⟨rfl, -⟩
      · exact .inl ((hcomplete a ha).2.2 hch)
      · cases ha
      · exact .inr (by simpa [dotDot] using hch)
    · exact .inl (hlast (List.mem_singleton.mp ha ▸ hch))
  obtain ⟨first, more, hmore⟩ := List.exists_cons_of_ne_nil (Text.pieces_ne_nil a : Text.pieces '/' a ≠ [])
  have hplain := hmore ▸ ha.2
  rw [List.tail_cons] at hplain
  have hwhole := ne_of_hash_mem (a := last ++ '#' :: first)
    (List.mem_append_right _ List.mem_cons_self)
  have hleft : leftover (f ++ '#' :: a) = more.reverse ++ (last ++ '#' :: first) ::
      complete.foldl (step (root? f).isSome) [] := by
    rw [leftover, hhash hmore fun piece hpiece => (hplain piece hpiece).1, (root?_append_hash f a).1,
      List.foldl_append, List.foldl_cons, step_other hwhole.1 hwhole.2,
      foldl_step_other fun piece hpiece => (hplain piece hpiece).2]
  have hslashes : '\\' ∉ f ++ '#' :: a := by simp [hf, ha.1]
  have hfront : front (f ++ '#' :: a) = front f := by rw [front, (root?_append_hash f a).1, front]
  rw [cleaned_eq hslashes, if_neg (by rw [hleft]; simp), hfront, hleft, List.reverse_append,
    List.reverse_cons, List.reverse_reverse, List.append_assoc, List.singleton_append,
    join_append_hash, ← hmore, join_pieces, List.append_assoc]

theorem stays_nil : Stays [] := by
  rw [Stays]
  decide

/-- What stands before a `#` that is set behind a text, when both are cleaned together. -/
def beforeHash (f : List Char) : List Char := (cleaned (f ++ ['#'])).dropLast

theorem exists_beforeHash (hf : '\\' ∉ f) : ∃ stack last, Stacked (root? f).isSome stack ∧
    '/' ∉ last ∧ (∀ a ∈ stack.reverse ++ [last], ∀ ch ∈ a, ch ∈ f ∨ ch = '.') ∧
    leftover f = (split last).foldl (step (root? f).isSome) stack ∧
    beforeHash f = front f ++ join (stack.reverse ++ [last]) := by
  obtain ⟨stack, last, hstack, hslash, hmem, hleft, hcleaned⟩ := exists_cleaned_hash hf
  refine ⟨stack, last, hstack, hslash, hmem, hleft, ?_⟩
  rw [beforeHash, hcleaned stays_nil, List.dropLast_concat]

/-- Behind a `#` a text that stays is left as it is. -/
theorem cleaned_append_hash (hf : '\\' ∉ f) (ha : Stays a) :
    cleaned (f ++ '#' :: a) = beforeHash f ++ '#' :: a := by
  obtain ⟨stack, last, -, -, -, -, hcleaned⟩ := exists_cleaned_hash hf
  rw [beforeHash, hcleaned stays_nil, hcleaned ha, List.dropLast_concat]

theorem body_of_root? (h : root? s = none) : body s = s := by
  rw [root?] at h
  rw [body]
  cases hdrive : drive? s with
  | none => rfl
  | some letter =>
    rw [hdrive] at h
    cases h

/-- A root that was read, and behind it segments that are joined: read again, they are the same. -/
theorem front_append {t : List Char} (ht : '\\' ∉ t)
    (hroot : (root? f).isSome = true ∨ root? (front f ++ t) = none) :
    '\\' ∉ front f ++ t ∧ (root? (front f ++ t)).isSome = (root? f).isSome ∧
      front (front f ++ t) = front f ∧ segments (front f ++ t) = split t := by
  cases hr : root? f with
  | some r =>
    obtain ⟨r', hupper, htext⟩ := exists_upper hr
    have hfront : front f = r'.text := by rw [front, hr, htext]; rfl
    have hcleaned : (⟨String.ofList r'.text⟩ : Path).Cleaned r' [] :=
      ⟨by rw [String.toList_ofList]; exact (List.append_nil _).symm, hupper, List.forall_mem_nil _⟩
    have hnone := hcleaned.backslash
    rw [String.toList_ofList] at hnone
    rw [hfront, root?_text hupper, segments_text hupper]
    refine ⟨fun h => (List.mem_append.mp h).elim hnone ht, rfl, ?_, rfl⟩
    rw [front, root?_text hupper]
    rfl
  | none =>
    have hfront : front f = [] := by rw [front, hr]; rfl
    rw [hr, hfront, List.nil_append] at hroot
    have hnone := hroot.resolve_left Bool.false_ne_true
    rw [hfront, List.nil_append]
    refine ⟨ht, by rw [hnone], by rw [front, hnone]; rfl, ?_⟩
    rw [segments, body_of_root? hnone, split]

/-- Cleaned once more, what stands before the `#` is what the text is cleaned to without it, if it begins
at no other root. -/
theorem cleaned_beforeHash (hf : '\\' ∉ f)
    (hroot : (root? f).isSome = true ∨ root? (beforeHash f) = none) :
    cleaned (beforeHash f) = cleaned f := by
  obtain ⟨stack, last, hstack, hslash, hmem, hleft, hbefore⟩ := exists_beforeHash hf
  rw [hbefore] at hroot ⊢
  have hsplit : split (join (stack.reverse ++ [last])) = stack.reverse ++ split last :=
    split_join_append (fun s hs => by
      obtain ⟨hne, hslash, -⟩ := hstack.mem (List.mem_reverse.mp hs)
      exact ⟨hne, hslash⟩) last
  have hclear : '\\' ∉ join (stack.reverse ++ [last]) :=
    not_mem_join (by decide) fun s hs hch => (hmem s hs _ hch).elim hf (by decide)
  obtain ⟨hslashes, hsame, hfront, hsegments⟩ := front_append hclear hroot
  have hagain : leftover (front f ++ join (stack.reverse ++ [last])) = leftover f := by
    rw [leftover, hsame, hsegments, hsplit, List.foldl_append, hstack.foldl_reverse, hleft]
  rw [cleaned_eq hslashes, hfront, hagain, cleaned_eq hf]

theorem hash_mem_of_beforeHash (hf : '\\' ∉ f) (h : '#' ∈ beforeHash f) : '#' ∈ f := by
  obtain ⟨stack, last, -, -, hmem, -, hbefore⟩ := exists_beforeHash hf
  rw [hbefore] at h
  have hjoin := (List.mem_append.mp h).resolve_left (hash_not_mem_front f)
  obtain ⟨s, hs, hch⟩ := (mem_join hjoin).resolve_left (by decide)
  exact (hmem s hs _ hch).resolve_right (by decide)

/-! ### Resolved texts -/

/-- The text that is cleaned when another is resolved from a directory. -/
def standing (base text : String) : List Char :=
  if (root? (slashed text.toList)).isSome then slashed text.toList
  else slashed base.toList ++ '/' :: slashed text.toList

theorem standing_clear (base text : String) : '\\' ∉ standing base text := by
  rw [standing]
  split
  · exact not_mem_slashed _
  · intro h
    rcases List.mem_append.mp h with h | h
    · exact not_mem_slashed _ h
    · exact not_mem_slashed _ ((List.mem_cons.mp h).resolve_left (by decide))

theorem resolve_eq (base text : String) :
    resolve base text = ofText (String.ofList (standing base text)) := by
  rw [resolve, standing]
  split <;> rfl

theorem toList_resolve (base text : String) :
    (resolve base text).text.toList = cleaned (standing base text) := by
  rw [resolve_eq, toList_ofText, String.toList_ofList]

/-- A link with something set behind a `#` is resolved where the link is. -/
theorem standing_hash (base text anchor : String) :
    standing base (text ++ "#" ++ anchor) = standing base text ++ '#' :: slashed anchor.toList := by
  have hslashed : slashed (text ++ "#" ++ anchor).toList =
      slashed text.toList ++ '#' :: slashed anchor.toList := by
    rw [String.toList_append, String.toList_append, slashed, List.map_append, List.map_append,
      List.append_assoc]
    rfl
  rw [standing, standing, hslashed, (root?_append_hash _ _).1]
  split
  · rfl
  · rw [List.append_assoc, List.cons_append]

/-- The directory of a path behind a root is rooted. -/
theorem Cleaned.anchored_directory {p : Path} {r : Root} {parts : List Segment}
    (h : p.Cleaned r parts) : Anchored p.directory := by
  have hslash : '/' ∈ p.text.toList := by
    rw [h.text]
    cases r <;> simp [Root.text]
  rw [directory]
  cases hcut : Text.cutLast '/' p.text.toList with
  | none => exact absurd hslash (Text.cutLast_eq_none.mp hcut)
  | some cut =>
    obtain ⟨before, after⟩ := cut
    have htext := Text.eq_of_cutLast hcut
    cases before with
    | nil =>
      change (Path.root? (slashed "/".toList)).isSome = true
      decide
    | cons ch before =>
      have hbackslash : '\\' ∉ ch :: before := fun hmem => h.backslash (by
        rw [htext]
        exact List.mem_append_left _ hmem)
      have hroot := h.root?
      rw [htext, (root?_append_cons (by decide) (List.cons_ne_nil ch before) after).1] at hroot
      change (Path.root? (slashed (String.ofList (ch :: before)).toList)).isSome = true
      rw [String.toList_ofList, slashed_of_not_mem hbackslash, hroot]
      rfl

end Path

end DocTree
