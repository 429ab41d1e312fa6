import SmaliFlow.Text.Utf8

/-!
# Class names

A class descriptor is a path between the letter L and a semicolon.  Its name is
the same path with dots, and its package is everything before the last dot.
-/

namespace SmaliFlow.ClassName

/-- The path inside a descriptor; octets that are no descriptor are kept. -/
def inner (descriptor : Bytes) : Bytes :=
  match descriptor with
  | 0x4c :: rest =>
      if rest.getLast? = some 0x3b then rest.dropLast else descriptor
  | _ => descriptor

/-- The dotted name of a descriptor or path. -/
def dotted (descriptor : Bytes) : String :=
  String.ofList ((Utf8.characters (inner descriptor)).map fun letter =>
    if letter = '/' then '.' else letter)

/-- Everything before the last dot, or nothing if there is no dot. -/
def package (name : String) : String :=
  String.ofList ((name.toList.reverse.dropWhile (· != '.')).drop 1).reverse

/-- Everything after the last dot. -/
def simple (name : String) : String :=
  String.ofList (name.toList.reverse.takeWhile (· != '.')).reverse

end SmaliFlow.ClassName
