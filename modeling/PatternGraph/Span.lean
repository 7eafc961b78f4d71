/-!
# Spans

The half-open part of a subject that one instance of a group covers, in characters. A group is
entered before it is left, so the two ends are set one after the other.

* `Span`, `Span.startingAt`, `Span.between`;
* `Span.range?`: both ends, once both are set; `Span.length?`, `Span.isEmpty`;
* `Span.withStop`: the same start with another end.
-/

namespace PatternGraph

/-- Where an instance of a group begins, and where it ends, as far as known. -/
structure Span where
  start : Option Nat := none
  stop : Option Nat := none
deriving DecidableEq

/-- Two ends in the wrong order. -/
structure ReversedEnds where
  start : Nat
  stop : Nat
deriving DecidableEq

/-- The text for two ends in the wrong order. -/
def ReversedEnds.message (e : ReversedEnds) : String :=
  s!"span begin {e.start} exceeds end {e.stop}"

namespace Span

/-- A span that has begun and not ended. -/
def startingAt (start : Nat) : Span := { start := some start }

/-- A span with both ends, which have to be in order. -/
def between (start stop : Nat) : Except ReversedEnds Span :=
  if start ≤ stop then .ok { start := some start, stop := some stop } else .error ⟨start, stop⟩

/-- Both ends, if both are set. -/
def range? (s : Span) : Option (Nat × Nat) :=
  match s.start, s.stop with
  | some start, some stop => some (start, stop)
  | _, _ => none

/-- Both ends are set. -/
def isDefined (s : Span) : Bool := s.start.isSome && s.stop.isSome

/-- The number of characters covered, if both ends are set. -/
def length? (s : Span) : Option Nat := s.range?.map fun r => r.2 - r.1

/-- Both ends are set and nothing lies between them. -/
def isEmpty (s : Span) : Bool := s.length? == some 0

/-- The span with its end set to `stop`, or cleared. -/
def withStop (s : Span) (stop : Option Nat) : Span := { s with stop := stop }

@[simp] theorem withStop_withStop (s : Span) (a b : Option Nat) :
    (s.withStop a).withStop b = s.withStop b := rfl

@[simp] theorem withStop_stop (s : Span) : s.withStop s.stop = s := rfl

end Span

end PatternGraph
