import PhpAssist.StableSort
import PhpAssist.Text

/-!
# Spans and diagnostics

A span is a stretch of a text, held as where it starts and how long it is, so that no span can
end before it starts. A diagnostic is a message about a span.

## Main definitions

* `Span`: A stretch of a text, in bytes.
* `Diagnostic`: A message about a span.
* `Diagnostic.inOrder`: Diagnostics by the place they speak about.
-/

namespace PhpAssist

/-- A stretch of a text: the offset of its first byte and its number of bytes. -/
structure Span where
  start : Nat
  length : Nat
  deriving DecidableEq, Inhabited

namespace Span

/-- The offset just past the last byte. -/
def stop (span : Span) : Nat := span.start + span.length

/-- The stretch of no bytes at an offset. -/
def empty (offset : Nat) : Span := ⟨offset, 0⟩

/-- The stretch from one offset to another; `none` when they are the wrong way round. -/
def between? (start stop : Nat) : Option Span :=
  if start ≤ stop then some ⟨start, stop - start⟩ else none

/-- From the start of one span to the end of a later one. -/
def cover (first last : Span) : Span := ⟨first.start, last.stop - first.start⟩

/-- Whether an offset lies in a span, both of its ends included. -/
def touches (span : Span) (offset : Nat) : Bool := span.start ≤ offset && offset ≤ span.stop

/-- The part of a text under a span. -/
def of (span : Span) (text : Text) : Text :=
  Text.takeBytes span.length (Text.dropBytes span.start text)

end Span

/-- A message about a stretch of a text. -/
structure Diagnostic where
  message : String
  span : Span
  deriving DecidableEq

/-- Diagnostics by the start of their spans; those about one place keep their order. -/
def Diagnostic.inOrder (diagnostics : List Diagnostic) : List Diagnostic :=
  StableSort.sort (fun a b => a.span.start ≤ b.span.start) diagnostics

end PhpAssist
