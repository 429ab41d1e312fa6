import SmaliFlow.Text.Bytes

/-!
# Scanners

A scanner looks at the beginning of an octet string.  If it accepts, it hands
back what it read together with the rest; if it refuses, nothing is read.  The
grammars of lines, fields and headers are chains of these scanners.
-/

namespace SmaliFlow.Scan

/-- Accept exactly the octets of `word`. -/
@[inline]
def word? (word : String) (input : Bytes) : Option Bytes :=
  (Bytes.ofString word).isPrefixOf? input

theorem isPrefixOf?_eq_some_iff {word input rest : Bytes} :
    word.isPrefixOf? input = some rest ↔ word ++ rest = input := by
  induction word generalizing input with
  | nil =>
      change some input = some rest ↔ [] ++ rest = input
      rw [Option.some.injEq, List.nil_append, eq_comm]
  | cons octet word ih =>
      cases input with
      | nil =>
          change none = some rest ↔ octet :: word ++ rest = []
          simp
      | cons first input =>
          change (if octet == first then word.isPrefixOf? input else none) =
            some rest ↔
            octet :: word ++ rest = first :: input
          by_cases same : octet = first
          · simp [same, ih]
          · simp [same]

theorem word?_eq_some_iff {word : String} {input rest : Bytes} :
    word? word input = some rest ↔ Bytes.ofString word ++ rest = input :=
  isPrefixOf?_eq_some_iff

theorem length_of_word?
    {word : String}
    {input rest : Bytes}
    (accepted : word? word input = some rest) :
    input.length = (Bytes.ofString word).length + rest.length := by
  rw [← word?_eq_some_iff.mp accepted, List.length_append]

/--
Accept the octets of `word` in any mixture of ASCII capitals and small letters.
-/
def wordAnyCase? (word : String) (input : Bytes) : Option Bytes :=
  let octets := Bytes.ofString word
  let beginning : Bytes := input.take octets.length
  if beginning.toLower = octets.toLower then
    some (input.drop octets.length)
  else
    none

/-- Pass over any number of spaces and tabs. -/
def blanks (input : Bytes) : Bytes :=
  input.dropWhile Octet.isBlank

/-- Pass over spaces and tabs, of which there is at least one. -/
def someBlanks? (input : Bytes) : Option Bytes :=
  match input with
  | octet :: rest => if Octet.isBlank octet then some (blanks rest) else none
  | [] => none

theorem length_blanks_le (input : Bytes) :
    (blanks input).length ≤ input.length :=
  (List.dropWhile_sublist Octet.isBlank).length_le

/-- The longest run of octets in a class, possibly empty. -/
def run (accept : UInt8 → Bool) (input : Bytes) : Bytes × Bytes :=
  (input.takeWhile accept, input.dropWhile accept)

/-- The longest run of octets in a class, which is not empty. -/
def someRun? (accept : UInt8 → Bool) (input : Bytes) : Option (Bytes × Bytes) :=
  match input with
  | octet :: _ => if accept octet then some (run accept input) else none
  | [] => none

/--
Look for `word` in `input`; what was passed over is kept in reverse in `passed`.
-/
def cutAt (word : Bytes) : (input passed : Bytes) → Option (Bytes × Bytes)
  | [], passed =>
      if word.isEmpty then some (passed.reverse, []) else none
  | octet :: rest, passed =>
      match word.isPrefixOf? (octet :: rest) with
      | some after => some (passed.reverse, after)
      | none => cutAt word rest (octet :: passed)

/--
Split at the first occurrence of `word` into what precedes and what follows it.
-/
def cut? (word : String) (input : Bytes) : Option (Bytes × Bytes) :=
  cutAt (Bytes.ofString word) input []

end SmaliFlow.Scan
