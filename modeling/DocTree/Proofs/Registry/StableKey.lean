import DocTree.Symbol
import DocTree.Text.Number
import DocTree.Proofs.RoundTrip.Path

/-!
Keys of symbols. Where neither the file nor the name of a symbol holds the separator, cutting its key at
every separator gives its parts back: two of them when it has neither a position nor a transient number,
and else four, with a mark for the number that is absent which no number is written as. So different
symbols have different keys.
-/

namespace DocTree

/-- Parts set one behind the other, each after a separator, are the pieces that they are cut into. -/
theorem Text.pieces_flatMap {sep : Char} {first : List Char} {parts : List (List Char)}
    (hfirst : sep ∉ first) (hparts : ∀ part ∈ parts, sep ∉ part) :
    pieces sep (first ++ parts.flatMap (sep :: ·)) = first :: parts := by
  induction parts generalizing first with
  | nil => rw [List.flatMap_nil, List.append_nil, pieces_of_not_mem hfirst]
  | cons part rest ih =>
    obtain ⟨hpart, hrest⟩ := List.forall_mem_cons.mp hparts
    rw [List.flatMap_cons, List.cons_append, pieces_append, pieces_of_not_mem hfirst, ih hpart hrest,
      List.singleton_append]

namespace Symbol

variable {m n : Option Nat} {s a b : Symbol}

/-- The separator stands neither in the file nor in the name. -/
structure Separable (s : Symbol) : Prop where
  file : '\x00' ∉ s.file.text.toList
  name : '\x00' ∉ s.name.toList

/-! ### Numbers that may be absent -/

theorem numberText_inj : numberText m = numberText n ↔ m = n := by
  refine ⟨fun h => ?_, congrArg numberText⟩
  have habsent (k : Nat) : "-1" ≠ toString k := fun heq =>
    have hdash : '-' ∈ (toString k).toList := heq ▸ by decide
    absurd (Text.isDigit_of_mem_toString hdash) (by decide)
  cases m with
  | none =>
    cases n with
    | none => rfl
    | some k => exact absurd h (habsent k)
  | some j =>
    cases n with
    | none => exact absurd h.symm (habsent j)
    | some k => exact congrArg some (Text.toString_inj.mp h)

theorem not_mem_numberText (n : Option Nat) : '\x00' ∉ (numberText n).toList := by
  cases n with
  | none => decide
  | some k => exact fun h => absurd (Text.isDigit_of_mem_toString h) (by decide)

/-! ### The parts of a key -/

/-- The numbers that a key holds: both as soon as there is one of them. -/
def keyNumbers (s : Symbol) : List (List Char) :=
  if s.pos = none ∧ s.transient = none then []
  else [(numberText s.pos).toList, (numberText s.transient).toList]

/-- What a key holds behind the file. -/
def keyParts (s : Symbol) : List (List Char) := s.name.toList :: s.keyNumbers

/-- A key is the file and all its other parts, each after a separator. -/
theorem toList_stableKey (s : Symbol) :
    s.stableKey.toList = s.file.text.toList ++ s.keyParts.flatMap ('\x00' :: ·) := by
  obtain ⟨file, name, pos, transient⟩ := s
  cases pos <;> cases transient <;> simp [stableKey, keyParts, keyNumbers]

theorem not_mem_keyParts (h : s.Separable) : ∀ part ∈ s.keyParts, '\x00' ∉ part := by
  refine List.forall_mem_cons.mpr ⟨h.name, ?_⟩
  rw [keyNumbers]
  split
  · exact List.forall_mem_nil _
  · simpa using ⟨not_mem_numberText s.pos, not_mem_numberText s.transient⟩

/-- Cutting a key at every separator gives its parts back. -/
theorem pieces_stableKey (h : s.Separable) :
    Text.pieces '\x00' s.stableKey.toList = s.file.text.toList :: s.keyParts := by
  rw [toList_stableKey, Text.pieces_flatMap h.file (not_mem_keyParts h)]

/-- The numbers of a symbol can be told from those that its key holds. -/
theorem eq_of_keyNumbers (h : a.keyNumbers = b.keyNumbers) :
    a.pos = b.pos ∧ a.transient = b.transient := by
  rw [keyNumbers, keyNumbers] at h
  split at h <;> split at h
  · next ha hb => exact ⟨ha.1.trans hb.1.symm, ha.2.trans hb.2.symm⟩
  · cases h
  · cases h
  · obtain ⟨hpos, htransient⟩ := List.cons_eq_cons.mp h
    exact ⟨numberText_inj.mp (String.toList_inj.mp hpos),
      numberText_inj.mp (String.toList_inj.mp (List.head_eq_of_cons_eq htransient))⟩

theorem eq_of_keyParts (hfile : a.file.text = b.file.text) (h : a.keyParts = b.keyParts) : a = b := by
  obtain ⟨hname, hnumbers⟩ := List.cons_eq_cons.mp h
  obtain ⟨hpos, htransient⟩ := eq_of_keyNumbers hnumbers
  obtain ⟨⟨file⟩, name, pos, transient⟩ := a
  obtain ⟨⟨file'⟩, name', pos', transient'⟩ := b
  obtain rfl : file = file' := hfile
  obtain rfl : name = name' := String.toList_inj.mp hname
  obtain rfl : pos = pos' := hpos
  obtain rfl : transient = transient' := htransient
  rfl

/-- Two symbols have the same key just when they are the same, whichever of their numbers are present. -/
theorem stableKey_eq_iff (ha : a.Separable) (hb : b.Separable) :
    a.stableKey = b.stableKey ↔ a = b := by
  refine ⟨fun h => ?_, congrArg stableKey⟩
  have hpieces : a.file.text.toList :: a.keyParts = b.file.text.toList :: b.keyParts := by
    rw [← pieces_stableKey ha, ← pieces_stableKey hb, h]
  obtain ⟨hfile, hparts⟩ := List.cons_eq_cons.mp hpieces
  exact eq_of_keyParts (String.toList_inj.mp hfile) hparts

/-- The one has a position and the other a transient number, with the same value. -/
theorem stableKey_eq_iff_numbered :
    let a : Symbol := ⟨.ofText "/p/a.ts", "Foo.bar", some 1, none⟩
    let b : Symbol := ⟨.ofText "/p/a.ts", "Foo.bar", none, some 1⟩
    a.Separable ∧ b.Separable ∧ (a.stableKey = b.stableKey ↔ a = b) ∧ a.stableKey ≠ b.stableKey :=
  have hfile : '\x00' ∉ (Path.ofText "/p/a.ts").text.toList := by decide
  have hname : '\x00' ∉ "Foo.bar".toList := by decide
  have hiff := stableKey_eq_iff (a := ⟨.ofText "/p/a.ts", "Foo.bar", some 1, none⟩)
    (b := ⟨.ofText "/p/a.ts", "Foo.bar", none, some 1⟩) ⟨hfile, hname⟩ ⟨hfile, hname⟩
  ⟨⟨hfile, hname⟩, ⟨hfile, hname⟩, hiff, fun h => absurd (hiff.mp h) (by decide)⟩

end Symbol

end DocTree
