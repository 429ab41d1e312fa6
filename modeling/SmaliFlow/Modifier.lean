import SmaliFlow.Text.Scan

/-!
# Access flags

The words between `.class`, `.field` or `.method` and the name that is being
declared.  A flag counts only if a space follows it directly, so that a name
which merely begins like a flag is left alone.
-/

namespace SmaliFlow

/-- The access flags of classes, fields and methods. -/
inductive Modifier where
  | publicAccess
  | privateAccess
  | protectedAccess
  | static
  | final
  | synchronized
  | volatile
  | bridge
  | transient
  | varargs
  | native
  | interface
  | abstract
  | strict
  | synthetic
  | annotationType
  | enum
  | constructor
  | declaredSynchronized
  deriving DecidableEq, Repr

namespace Modifier

/-- All flags. -/
def all : List Modifier :=
  [.publicAccess, .privateAccess, .protectedAccess, .static, .final,
    .synchronized, .volatile, .bridge, .transient, .varargs, .native,
    .interface, .abstract, .strict, .synthetic, .annotationType, .enum,
    .constructor, .declaredSynchronized]

/-- The word that spells a flag. -/
def keyword : Modifier → String
  | .publicAccess => "public"
  | .privateAccess => "private"
  | .protectedAccess => "protected"
  | .static => "static"
  | .final => "final"
  | .synchronized => "synchronized"
  | .volatile => "volatile"
  | .bridge => "bridge"
  | .transient => "transient"
  | .varargs => "varargs"
  | .native => "native"
  | .interface => "interface"
  | .abstract => "abstract"
  | .strict => "strict"
  | .synthetic => "synthetic"
  | .annotationType => "annotation"
  | .enum => "enum"
  | .constructor => "constructor"
  | .declaredSynchronized => "declared-synchronized"

theorem mem_all (modifier : Modifier) : modifier ∈ all := by
  cases modifier <;> decide

/-- The flag that a word spells. -/
def ofKeyword? (word : String) : Option Modifier :=
  all.find? fun modifier => modifier.keyword == word

/-- The flag whose word stands at the beginning of `input`. -/
def word? (input : Bytes) : Option (Modifier × Bytes) :=
  all.findSome? fun modifier =>
    (Scan.word? modifier.keyword input).map fun rest => (modifier, rest)

/-- One flag with the space that follows it, and any blanks around them. -/
def next? (input : Bytes) : Option (Modifier × Bytes) := do
  let (modifier, rest) ← word? (Scan.blanks input)
  let rest ← Scan.word? " " rest
  return (modifier, Scan.blanks rest)

theorem length_lt_of_next?
    {input rest : Bytes}
    {modifier : Modifier}
    (accepted : next? input = some (modifier, rest)) :
    rest.length < input.length := by
  simp only [next?, word?, Option.bind_eq_bind, Option.bind_eq_some_iff,
    Option.pure_def, Option.some.injEq, Prod.mk.injEq] at accepted
  obtain ⟨⟨found, afterWord⟩, wordAccepted, afterSpace, spaceAccepted, -,
    rfl⟩ := accepted
  obtain ⟨candidate, -, mapped⟩ := List.exists_of_findSome?_eq_some wordAccepted
  obtain ⟨remaining, remainingAccepted, equality⟩ :=
    Option.map_eq_some_iff.mp mapped
  cases equality
  have wordLength := Scan.length_of_word? remainingAccepted
  have spaceLength : afterWord.length = _ := Scan.length_of_word? spaceAccepted
  have space : (Bytes.ofString " ").length = 1 := by decide
  have before := Scan.length_blanks_le input
  have after := Scan.length_blanks_le afterSpace
  omega

/--
Read flags as long as there are any; those already read are kept in reverse.
-/
def continueScan (input : Bytes) (found : List Modifier) :
    List Modifier × Bytes :=
  match _accepted : next? input with
  | some (modifier, rest) => continueScan rest (modifier :: found)
  | none => (found.reverse, input)
termination_by input.length
decreasing_by exact length_lt_of_next? _accepted

/-- The longest list of flags at the beginning of `input`, and the rest. -/
def scan (input : Bytes) : List Modifier × Bytes :=
  continueScan input []

end Modifier

end SmaliFlow
