/-!
# Paths as text

A path is text in which slashes part directories. It falls into a parent, which keeps its
last slash, and a base name, which falls at its first dot into a name and an extension.
Nothing here asks a file system.
-/

namespace Pipework.PathText

/-- What follows the last slash. -/
def baseName (path : List Char) : List Char := (path.reverse.takeWhile (· ≠ '/')).reverse

/-- Everything up to the last slash, slash included; empty without one. -/
def parent (path : String) : String :=
  String.ofList (path.toList.reverse.dropWhile (· ≠ '/')).reverse

/-- The base name up to its first dot. -/
def name (path : String) : String :=
  String.ofList ((baseName path.toList).takeWhile (· ≠ '.'))

/-- The base name behind its first dot; empty without one. -/
def extension (path : String) : String :=
  String.ofList ((baseName path.toList).dropWhile (· ≠ '.')).tail

/-- Puts a suffix between name and extension, or behind a path that has no extension. -/
def withSuffix (path suffix : String) : String :=
  if extension path = "" then path ++ "." ++ suffix
  else parent path ++ name path ++ "." ++ suffix ++ "." ++ extension path

/-- Puts a relative path into a directory. A path that starts with a slash stays, and an empty
directory changes nothing. -/
def inDirectory (directory path : String) : String :=
  if path.toList.head? = some '/' ∨ directory = "" then path
  else if directory.toList.getLast? = some '/' then directory ++ path
  else directory ++ "/" ++ path

/-- Only the first dot of the base name counts, and a dot before the last slash does not. -/
example : name "a.d/x.tar.gz" = "x" ∧ extension "a.d/x.tar.gz" = "tar.gz" ∧
    withSuffix "a.d/x.tar.gz" "s" = "a.d/x.s.tar.gz" := by decide

end Pipework.PathText
