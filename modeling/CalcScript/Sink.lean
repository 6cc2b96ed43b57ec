/-
`Sink.lean` -- where a session's output goes.

A sink keeps the bytes written to it. It may have room for so many bytes only:
then a write that does not fit fills it up and fails. It may also refuse to be
flushed more than a number of times. What it says then is its own affair, and
whoever has called it passes that on.
-/

set_option autoImplicit false

namespace CalcScript

structure Sink where
  written : ByteArray
  /-- the bytes it still has room for; `none` if there is no limit -/
  room : Option Nat
  /-- the flushes that will still succeed; `none` if all of them will -/
  flushes : Option Nat
  /-- its error when a write does not fit -/
  writeError : String
  /-- its error when it refuses to be flushed -/
  flushError : String

namespace Sink

/-- A sink that never fails, so it has nothing to say about failing. -/
def unlimited : Sink := ⟨.empty, none, none, "", ""⟩

/-- Writes a text. The error of the sink comes back unless all of it was taken. -/
def write (s : Sink) (text : String) : Except String Unit × Sink :=
  let bytes := text.toUTF8
  match s.room with
  | none => (.ok (), { s with written := s.written ++ bytes })
  | some room =>
    (if bytes.size ≤ room then .ok () else .error s.writeError,
      { s with
        written := s.written ++ bytes.extract 0 (min room bytes.size)
        room := some (room - bytes.size) })

/-- Flushes, unless the sink refuses that with an error. -/
def flush (s : Sink) : Except String Unit × Sink :=
  match s.flushes with
  | none => (.ok (), s)
  | some 0 => (.error s.flushError, s)
  | some (n + 1) => (.ok (), { s with flushes := some n })

end Sink

end CalcScript
