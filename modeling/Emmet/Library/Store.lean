import Emmet.Library.Loading
import Emmet.Text.Blank

/-!
# The installed library

A store holds the library that completions use. Libraries are installed as a whole and numbered from
one on, so what was looked up before stays as it was.

* `install` and `reset` install a given and the empty library;
* `reload` installs the library of the configured directory. It resets the store first, so nothing
  of an earlier library is left when loading fails.
-/

namespace Emmet

/-- The holder of the installed library. -/
structure Store where
  current : Library := .empty
  /-- The version of the next library: one more than there were installations. Leaving 64 bits would
  take 2^64 of them, at one a nanosecond some centuries. -/
  next : Nat := 1

namespace Store

/-- Installs a library under the next version. -/
def install (s : Store) (l : Library) : Store :=
  ⟨{ l with version := s.next }, s.next + 1⟩

/-- Installs the empty library. -/
def reset (s : Store) : Store := s.install .empty

/-- The configured paths without blanks around them, and without blank ones. -/
def usablePaths (paths : List String) : List String :=
  (paths.map fun p => String.ofList (Text.trim p.toList)).filter (· ≠ "")

/-- The library of the first usable directory. -/
def find (fs : FileSystem) (folders paths : List String) :
    Traced Notice (Except LoadError Library) := do
  let directory ← Library.resolve fs folders paths
  match directory with
  | .ok directory => Library.load fs directory
  | .error e => return .error e

/-- Installs the library of the first usable directory, after a reset. Without a usable path the
reset is all. -/
def reload (s : Store) (fs : FileSystem) (paths folders : List String) :
    Traced Notice (Store × Except LoadError Library) := do
  let cleared := s.reset
  let paths := usablePaths paths
  if paths.isEmpty then
    Traced.emit .noPath
    return (cleared, .ok cleared.current)
  let loaded ← find fs folders paths
  match loaded with
  | .ok l =>
    let after := cleared.install l
    Traced.emit (.loaded after.current.version (after.current.source.getD "")
      after.current.snippets.length)
    return (after, .ok after.current)
  | .error e =>
    Traced.emit (.loadFailed e)
    return (cleared, .error e)

end Store

end Emmet
