import TypeInliner.Text

/-! # Byte ranges of a text -/

namespace TypeInliner

/-- A range of bytes, the end not included. -/
structure Span where
  start : Nat
  stop : Nat
  deriving DecidableEq, Repr

namespace Span

def merge (a b : Span) : Span := ⟨min a.start b.start, max a.stop b.stop⟩

/-- Number of bytes; a range that ends before it starts has none. -/
def size (s : Span) : Nat := s.stop - s.start

def isEmpty (s : Span) : Bool := s.size = 0

/-- The part of a source that a range covers, cut at the end of the source. -/
def slice (s : Span) (source : Text) : Text :=
  let stop := min s.stop (Text.bytes source)
  let start := min s.start stop
  Text.takeBytes (stop - start) (Text.dropBytes start source)

end Span

end TypeInliner
