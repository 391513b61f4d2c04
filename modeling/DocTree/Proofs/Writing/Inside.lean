import DocTree.Proofs.Writing.Within

/-!
Which reflections are nested in what is written of a reflection: those that its slots hold and those
that its types mention, one object for each place. The order in which the places are written is not the
order of the slots, so the numbers are compared as permutations.
-/

namespace DocTree

open Json (within withinFields)

namespace Copying

variable {c : Copying} {among : ReflectionId → Prop} {inside : ReflectionId → Option Json}
  {shown : ReflectionId → List ReflectionId}

/-! ### Types -/

section Live

variable (hid : ∀ i r, c.project.get? i = some r → r.id = i)
  (hlive : ∀ i, c.project.contains i = true → among i)

include hid hlive

end Live

end Copying

end DocTree
