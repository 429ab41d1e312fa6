import SmaliFlow.Text.Search

/-!
# Settings

The limits on what is read, and the packages of bundled advertising code.  A
package is written with slashes or with dots, and it matches a path only by
whole components.
-/

namespace SmaliFlow

/-- Limits and package lists that reading obeys. -/
structure Settings where
  /-- The largest number of octets in one file. -/
  maxFileSize : Nat
  /-- The largest number of octets in one line. -/
  maxLineLength : Nat
  /-- The packages of bundled advertising code. -/
  adPackages : List String
  deriving DecidableEq, Repr

namespace Settings

/--
Four mebibytes for a file, 64 kibibytes for a line, and the common packages.
-/
def standard : Settings where
  maxFileSize := 4 * 1024 * 1024
  maxLineLength := 64 * 1024
  adPackages :=
    ["com/google/ads",
      "com/google/android/gms/ads",
      "com/admob",
      "com/millennialmedia",
      "com/inmobi",
      "com/flurry",
      "com/mopub",
      "com/applovin",
      "com/startapp",
      "com/unity3d/ads"]

/--
The largest number of octets that can be counted, which is that of 64 bits.
-/
def largestCount : Nat :=
  UInt64.size - 1

/--
How many octets of a file are asked for: one more than it may have, so that a
file that is too large shows, unless there is no larger count.
-/
def wantedCount (settings : Settings) : Nat :=
  min (settings.maxFileSize + 1) largestCount

/-- Whether an octet is a slash or a dot. -/
def isPackageEdge (octet : UInt8) : Bool :=
  octet == 0x2f || octet == 0x2e

/--
A package without slashes and dots at its ends, and with a slash for every dot.
-/
def packagePath (package : String) : Bytes :=
  let inner := (Bytes.ofString package).dropWhile isPackageEdge
  let inner := (inner.reverse.dropWhile isPackageEdge).reverse
  inner.map fun octet => if octet == 0x2e then 0x2f else octet

/-- A path with a slash for every backslash. -/
def slashPath (path : String) : Bytes :=
  (Bytes.ofString path).map fun octet => if octet == 0x5c then 0x2f else octet

/--
Whether `package`, where it occurs in `path` at `place`, begins and ends with a
component, and a further component follows.
-/
def standsWhole (path package : Bytes) (place : Nat) : Bool :=
  (place == 0 || path[place - 1]? == some 0x2f) &&
    path[place + package.length]? == some 0x2f

/--
Whether `package` occurs in `path` as whole components at `start` or later.
-/
def holdsFrom (path package : Bytes) (start : Nat) : Bool :=
  match found : Search.indexFrom? path package start with
  | none => false
  | some place =>
      standsWhole path package place || holdsFrom path package (place + 1)
termination_by path.length + 1 - start
decreasing_by
  have range := Search.indexFrom?_range found
  omega

/-- Whether a path lies below a package. -/
def isBelow (path package : Bytes) : Bool :=
  !package.isEmpty && holdsFrom path package 0

/-- Whether a file lies below one of the advertising packages. -/
def isAdPath (settings : Settings) (path : String) : Bool :=
  let path := slashPath path
  settings.adPackages.any fun package => isBelow path (packagePath package)

end Settings

end SmaliFlow
