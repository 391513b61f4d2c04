/-!
Cutting a text at a character: at every occurrence, at the first, at the last. Joining the pieces of
`pieces` with the character gives the text back, and so do both halves of `cutFirst` and `cutLast`.
-/

namespace DocTree.Text

/-- The pieces between the occurrences of `sep`; always at least one. -/
def pieces (sep : Char) : List Char → List (List Char)
  | [] => [[]]
  | c :: rest =>
    if c = sep then [] :: pieces sep rest
    else match pieces sep rest with
      | [] => [[c]]
      | piece :: more => (c :: piece) :: more

/-- What stands before and after the first `sep`. -/
def cutFirst (sep : Char) : List Char → Option (List Char × List Char)
  | [] => none
  | c :: rest =>
    if c = sep then some ([], rest)
    else (cutFirst sep rest).map fun (before, after) => (c :: before, after)

/-- What stands before and after the last `sep`. -/
def cutLast (sep : Char) : List Char → Option (List Char × List Char)
  | [] => none
  | c :: rest =>
    match cutLast sep rest with
    | some (before, after) => some (c :: before, after)
    | none => if c = sep then some ([], rest) else none

/-! ### Small laws -/

theorem eq_of_cutFirst {sep : Char} : ∀ {s before after : List Char},
    cutFirst sep s = some (before, after) → s = before ++ sep :: after
  | [], _, _, h => by simp [cutFirst] at h
  | c :: rest, before, after, h => by
    by_cases hc : c = sep
    · simp [cutFirst, hc] at h
      obtain ⟨rfl, rfl⟩ := h
      simp [hc]
    · simp [cutFirst, hc] at h
      obtain ⟨b, hcut, rfl⟩ := h
      simp [eq_of_cutFirst hcut]

theorem eq_of_cutLast {sep : Char} : ∀ {s before after : List Char},
    cutLast sep s = some (before, after) → s = before ++ sep :: after
  | [], _, _, h => by simp [cutLast] at h
  | c :: rest, before, after, h => by
    simp only [cutLast] at h
    split at h
    · next b a hcut =>
      simp only [Option.some.injEq, Prod.mk.injEq] at h
      obtain ⟨rfl, rfl⟩ := h
      simp [eq_of_cutLast hcut]
    · split at h
      · simp only [Option.some.injEq, Prod.mk.injEq] at h
        obtain ⟨rfl, rfl⟩ := h
        simp [*]
      · simp at h

end DocTree.Text
