/-!
Lists in order of rank. An entry has a priority; entries of a higher priority come first, and of
equal priority the one that was added first. Each entry gets a number of its own, under which it can
be removed once. A new entry comes to its place in one of two ways: it is added at the end and all are
sorted anew, or its place is looked for by halving.
-/

namespace DocTree

/-- An item with its number and priority. -/
structure Ranked.Entry (α : Type) where
  number : Nat
  priority : Int
  item : α

/-- Items in order of rank. Numbers are counted without bound; what is said of a list is meant for fewer
than `2 ^ 32` items that were ever added to it. -/
structure Ranked (α : Type) where
  next : Nat
  entries : List (Ranked.Entry α)

namespace Ranked

variable {α : Type}

/-! ### Placing an entry -/

/-- An entry has at least the priority of another, and so may stand before it. -/
def Entry.precedes (e f : Entry α) : Bool := f.priority ≤ e.priority

/-- Add an entry at the end and sort anew. The sort leaves entries of equal priority in their order. -/
def sortIn (entry : Entry α) (entries : List (Entry α)) : List (Entry α) :=
  (entries ++ [entry]).mergeSort Entry.precedes

/-- The first place from `low` up to `high` at which a test fails, found by halving; behind a place at
which it fails the test has to fail too. -/
def boundary (test : Nat → Bool) (low high : Nat) : Nat :=
  if low < high then
    let middle := low + (high - low) / 2
    if test middle then boundary test (middle + 1) high else boundary test low middle
  else low
termination_by high - low

/-- Put an entry behind all that may stand before it. -/
def slotIn (entry : Entry α) (entries : List (Entry α)) : List (Entry α) :=
  let place := boundary (fun i => entries[i]?.any (·.precedes entry)) 0 entries.length
  entries.insertIdx place entry

/-- The entries without that of a number. -/
def strike (number : Nat) (entries : List (Entry α)) : List (Entry α) :=
  entries.filter (·.number ≠ number)

/-! ### One list -/

def empty : Ranked α := ⟨0, []⟩

/-- Add an item under the next number. -/
def add (r : Ranked α) (priority : Int) (item : α) : Ranked α × Nat :=
  (⟨r.next + 1, sortIn ⟨r.next, priority, item⟩ r.entries⟩, r.next)

/-- Remove the entry of a number; says whether there was one. -/
def remove (r : Ranked α) (number : Nat) : Ranked α × Bool :=
  let kept := strike number r.entries
  (⟨r.next, kept⟩, kept.length ≠ r.entries.length)

/-- The items, in the order in which they act. -/
def items (r : Ranked α) : List α :=
  r.entries.map (·.item)

end Ranked

end DocTree
