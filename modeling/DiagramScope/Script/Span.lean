/-!
Spans: the part of a source text, in bytes, that a token, an expression or a message stands for.
-/

set_option autoImplicit false
set_option relaxedAutoImplicit false

namespace DiagramScope.Script

/-- The bytes from `start` up to, but without, `stop`. -/
@[ext]
structure Span where
  start : Nat
  stop : Nat
  start_le_stop : start ≤ stop
  deriving DecidableEq, Repr

namespace Span

/-- The span between two offsets, empty at the first if the second lies before it. -/
def between (start stop : Nat) : Span := ⟨start, max start stop, Nat.le_max_left start stop⟩

def atOffset (offset : Nat) : Span := ⟨offset, offset, Nat.le_refl offset⟩

instance : Inhabited Span := ⟨.atOffset 0⟩

def length (s : Span) : Nat := s.stop - s.start

def isEmpty (s : Span) : Bool := s.start = s.stop

def union (s t : Span) : Span := between (min s.start t.start) (max s.stop t.stop)

def shift (s : Span) (bytes : Nat) : Span :=
  ⟨s.start + bytes, s.stop + bytes, Nat.add_le_add_right s.start_le_stop bytes⟩

@[simp]
theorem start_union (s t : Span) : (s.union t).start = min s.start t.start := rfl

@[simp]
theorem stop_union (s t : Span) : (s.union t).stop = max s.stop t.stop := by
  have hs := s.start_le_stop
  have ht := t.start_le_stop
  simp only [union, between]
  omega

theorem shift_union (s t : Span) (bytes : Nat) :
    (s.union t).shift bytes = (s.shift bytes).union (t.shift bytes) := by
  ext
  · simp only [shift, start_union]
    omega
  · simp only [shift, stop_union]
    omega

end Span

end DiagramScope.Script
