/-
**How the program is built.** Debug builds check assertions and Release builds do not; the two
platforms ask the operating system for memory in different ways.
-/

namespace NpAlloc

inductive Build
  | debug
  | release
deriving DecidableEq

inductive Platform
  | windows
  | posix
deriving DecidableEq

end NpAlloc
