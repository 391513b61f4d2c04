import DocTree.Proofs.RoundTrip.Draft

/-!
What stands in a project that was read again for what was mentioned in the one that was written. A
text says the same as before of the counterparts of what it mentioned.
-/

namespace DocTree

/-- What a project that was read again has for what was mentioned before: the new numbers of
reflections and files, and symbols as they are read. -/
structure Counterparts where
  id : ReflectionId → Option ReflectionId
  file : FileId → Option FileId
  symbol : Symbol → Symbol

namespace Counterparts

variable (k : Counterparts)

/-- An old number that is still pending has no counterpart. -/
def link? : LinkTarget → Option LinkTarget
  | .reflection id => (k.id id).map .reflection
  | .symbol s => some (.symbol (k.symbol s))
  | .url address => some (.url address)
  | .pending _ => none

def part : Part → Part
  | .inlineTag tag s target linkText => .inlineTag tag s (target.bind k.link?) linkText
  | .relativeLink s file anchor => .relativeLink s (file.bind k.file) anchor
  | part => part

end Counterparts

namespace Copying

variable {c : Copying} {v : Revival} {k : Counterparts}

/-- These are the counterparts in what is made of the copy by the new numbers. -/
structure Matches (c : Copying) (v : Revival) (k : Counterparts) : Prop where
  id : ∀ i, k.id i = if c.project.contains i then v.id? i else none
  file : k.file = c.file?
  symbol : k.symbol = Symbol.reread c.root

/-- A part written and read again mentions the counterparts. -/
theorem Matches.newPart (h : c.Matches v k) (q : Part) : Reader.newPart v (c.part q) = k.part q := by
  cases q with
  | inlineTag tag s target linkText =>
    refine congrArg (Part.inlineTag tag s · linkText) ?_
    rw [Option.bind_assoc]
    refine Option.bind_congr fun target _ => ?_
    cases target with
    | reflection id =>
      rw [link?, Counterparts.link?, h.id]
      split
      · rfl
      · rfl
    | symbol s => exact congrArg (fun f => some (LinkTarget.symbol (f s))) h.symbol.symm
    | url address | pending old => rfl
  | relativeLink s file anchor =>
    exact congrArg (fun f => Part.relativeLink s (file.bind f) anchor) h.file.symm
  | text s | code s => rfl

theorem Matches.newParts (h : c.Matches v k) (ps : List Part) :
    (c.parts ps).map (Reader.newPart v) = ps.map k.part :=
  List.map_map.trans (List.map_congr_left fun q _ => h.newPart q)

end Copying

end DocTree
