import OpenPgTde.Rewind.Segments

/-!
The other files after a rewind.

Files that are neither of a relation nor segments of the WAL to keep are not looked into. They become those
of the source, apart from those that belong to a running server, which disappear, and a few that are left as
they are. `rewind_files` says which.
-/

namespace OpenPgTde

/-- Files that a rewind does not touch: the control file is written at the very end, and the key directory
is replaced as a whole. -/
def untouched (path : List UInt8) : Bool :=
  path = ascii "global/pg_control" || strstr path (ascii ".DS_Store") ||
    (ascii "open_pg").isPrefixOf path

section Files

variable {env : RewindEnv} {target : RewindTarget} {r : ScanResult} {st : RewindState} {dir : TdeDir}

end Files

end OpenPgTde
