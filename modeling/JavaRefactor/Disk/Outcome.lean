import JavaRefactor.Disk.Basic

/-! # Outcomes

Work on a disk gives a result or an error. Either way it leaves a disk, and what was
made before an error stays.
-/

namespace JavaRefactor

/-- The result of work on a disk and the disk that it leaves. -/
structure Outcome (ε α : Type) where
  result : Except ε α
  disk : Disk

namespace Outcome

def map (f : α → β) (o : Outcome ε α) : Outcome ε β := ⟨o.result.map f, o.disk⟩

def mapError (f : ε → δ) (o : Outcome ε α) : Outcome δ α := ⟨o.result.mapError f, o.disk⟩

/-- The disk that work leaves if nothing goes wrong. -/
def complete (o : Outcome ε α) : Except ε Disk := o.result.map fun _ => o.disk

end Outcome

end JavaRefactor
