/-! # Byte spans

A span is the half-open interval of bytes `[start, stop)` of a text. Spans that
are read from outside may be inverted, so the order of the two ends is a
hypothesis where it matters and not part of the type.
-/

namespace JavaRefactor

/-- The bytes from `start` up to, but not including, `stop`. -/
structure Span where
  start : Nat
  stop : Nat
  deriving DecidableEq, Repr, Inhabited

namespace Span

/-- The span between two offsets, none if they are inverted. -/
def make? (start stop : Nat) : Option Span :=
  if start ≤ stop then some ⟨start, stop⟩ else none

/-- Number of bytes; an inverted span has none. -/
def length (s : Span) : Nat := s.stop - s.start

def isEmpty (s : Span) : Bool := s.start == s.stop

/-- Some byte lies in both spans. Adjacent spans do not overlap. -/
def overlaps (s t : Span) : Bool := s.start < t.stop && t.start < s.stop

/-- The span `t` lies within the span `s`. -/
def contains (s t : Span) : Bool := s.start ≤ t.start && t.stop ≤ s.stop

/-- The span `t` lies within the span `s` and differs from it. -/
def strictlyContains (s t : Span) : Bool := s != t && s.contains t

/-- An empty span contains its own start and nothing else. -/
def containsOffset (s : Span) (offset : Nat) : Bool :=
  if s.isEmpty then offset == s.start else s.start ≤ offset && offset < s.stop

/-- The order by start, then by end. -/
def le (s t : Span) : Bool := s.start < t.start || (s.start == t.start && s.stop ≤ t.stop)

/-- The strict part of `Span.le`. -/
def lt (s t : Span) : Bool := s.start < t.start || (s.start == t.start && s.stop < t.stop)

/-- A span is written as the interval it is. -/
def display (s : Span) : String := s!"[{s.start}, {s.stop})"

end Span

end JavaRefactor
