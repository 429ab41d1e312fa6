import SmaliFlow.Text.Bytes

/-!
# Searching for an octet pattern

The search reads the text once.  It remembers how many octets of the pattern
end at the current place, and on a mismatch falls back to the longest border
of that part: the longest proper beginning of the pattern that is also an end
of what was matched.  The borders of all beginnings of the pattern are found
by running the same step on the pattern itself.
-/

namespace SmaliFlow.Search

/--
The length of the longest beginning of `pattern` that ends with `octet`, when
`matched` octets of the pattern end right before it.  `borders` holds, for each
index, the border length of the beginning that ends there; a border is shorter
than what it borders, so falling back always makes progress.
-/
def extend
    (pattern : Array UInt8)
    (borders : Array Nat)
    (octet : UInt8)
    (matched : Nat) : Nat :=
  if pattern[matched]? = some octet then
    matched + 1
  else
    let shorter := borders[matched - 1]?.getD 0
    if shorter < matched then
      extend pattern borders octet shorter
    else
      0
termination_by matched

/--
Continue the border table of `pattern` over the octets that are still to come.
-/
def continueBorders (pattern : Array UInt8) :
    (upcoming : Bytes) → (matched : Nat) → (borders : Array Nat) → Array Nat
  | [], _, borders => borders
  | octet :: upcoming, matched, borders =>
      let longer := extend pattern borders octet matched
      continueBorders pattern upcoming longer (borders.push longer)

/--
The border table of a pattern: the entry at an index is the length of the
longest proper border of the beginning that ends with that index.
-/
def borders (pattern : Bytes) : Array Nat :=
  match pattern with
  | [] => #[]
  | _ :: upcoming => continueBorders pattern.toArray upcoming 0 #[0]

/--
Read `text`, whose first octet stands at `position`, until all of `pattern` has
been matched; `matched` octets of it end right before `text`.
-/
def seek (pattern : Array UInt8) (borders : Array Nat) :
    (text : Bytes) → (position matched : Nat) → Option Nat
  | [], _, _ => none
  | octet :: text, position, matched =>
      let longer := extend pattern borders octet matched
      if longer = pattern.size then
        some (position + 1 - pattern.size)
      else
        seek pattern borders text (position + 1) longer

/--
The first place at or after `start` where `pattern` occurs in `text`.  The empty
pattern occurs everywhere, the end of the text included.
-/
def indexFrom? (text pattern : Bytes) (start : Nat) : Option Nat :=
  if pattern.isEmpty then
    if start ≤ text.length then some start else none
  else
    seek pattern.toArray (borders pattern) (text.drop start) start 0

/-- A step matches at most one octet more. -/
theorem extend_le
    (pattern : Array UInt8)
    (borders : Array Nat)
    (octet : UInt8)
    (matched : Nat) :
    extend pattern borders octet matched ≤ matched + 1 := by
  induction matched using Nat.strongRecOn with
  | ind matched ih =>
      unfold extend
      split
      · exact Nat.le_refl _
      · dsimp only
        split
        · rename_i shorter
          exact Nat.le_trans (ih _ shorter)
            (Nat.succ_le_succ (Nat.le_of_lt shorter))
        · exact Nat.zero_le _

theorem seek_range
    {pattern : Array UInt8}
    {borders : Array Nat}
    {text : Bytes}
    {start position matched found : Nat}
    (begun : start + matched ≤ position)
    (sought : seek pattern borders text position matched = some found) :
    start ≤ found ∧ found ≤ position + text.length := by
  induction text generalizing position matched with
  | nil => cases sought
  | cons octet text ih =>
      have longer := extend_le pattern borders octet matched
      rw [seek] at sought
      rw [List.length_cons]
      split at sought
      · cases sought
        omega
      · have range := ih (by omega) sought
        omega

/-- What is found lies between the start and the end of the text. -/
theorem indexFrom?_range
    {text pattern : Bytes}
    {start found : Nat}
    (sought : indexFrom? text pattern start = some found) :
    start ≤ found ∧ found ≤ text.length := by
  unfold indexFrom? at sought
  split at sought
  · split at sought
    · cases sought
      omega
    · cases sought
  · have range := seek_range (Nat.le_refl start) sought
    rw [List.length_drop] at range
    by_cases inside : start ≤ text.length
    · omega
    · rw [List.drop_eq_nil_of_le (by omega)] at sought
      cases sought

/-- The first place where `pattern` occurs in `text`. -/
def index? (text pattern : Bytes) : Option Nat :=
  indexFrom? text pattern 0

/-- Whether `pattern` occurs in `text`. -/
def contains (text pattern : Bytes) : Bool :=
  (index? text pattern).isSome

end SmaliFlow.Search
