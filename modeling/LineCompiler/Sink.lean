/-!
# Sinks

A sink takes the text of the compiled program. It may have room for a limited number of characters
only, and it may fail to hand on what it holds. Program text is ASCII, so a character is a byte.
-/

namespace LineCompiler

structure Sink where
  /-- The number of characters that the sink still takes; `none` if there is no limit. -/
  room : Option Nat := none
  /-- Whether handing on the text fails. -/
  flushFails : Bool := false
  written : String := ""
  deriving DecidableEq, Repr

namespace Sink

/-- Writes `text` and tells whether all of it was taken. As much as there is room for is kept. -/
def put (s : Sink) (text : String) : Bool × Sink :=
  match s.room with
  | none => (true, { s with written := s.written ++ text })
  | some room =>
    if text.length ≤ room then
      (true, { s with room := some (room - text.length), written := s.written ++ text })
    else
      (false, { s with
        room := some 0
        written := s.written ++ String.ofList (text.toList.take room) })

end Sink

end LineCompiler
