import Mathlib.Data.List.Forall2
import SmaliFlow.Proofs.Operands

/-!
# The family of an opcode

The table of beginnings is searched from its top, and the first beginning that
the opcode has decides.  No beginning in the table begins another one that
stands below it, so of those that the opcode has the first is the longest,
whatever the opcode is.

The search is done in small letters, and what is read behind the opcode depends
on the opcode only through its family.  So the case of its letters shows nowhere
but in the opcode itself.
-/

namespace SmaliFlow

/-! ## The two cases of a letter -/

namespace Octet

/--
The octets are equal, or the capital and the small form of one ASCII letter.
-/
def Recased (octet other : UInt8) : Prop :=
  octet = other ∨ isUpper octet = true ∧ other = octet + 0x20 ∨
    isUpper other = true ∧ octet = other + 0x20

instance (octet other : UInt8) : Decidable (Recased octet other) :=
  inferInstanceAs (Decidable (_ ∨ _))

theorem isLower_add_of_isUpper {octet : UInt8} (upper : isUpper octet = true) :
    isLower (octet + 0x20) = true := by
  simp only [isUpper, isLower, Bool.and_eq_true, decide_eq_true_eq,
    UInt8.le_iff_toNat_le, UInt8.toNat_add, UInt8.reduceToNat] at upper ⊢
  omega

theorem isUpper_of_isLower {octet : UInt8} (lower : isLower octet = true) :
    isUpper octet = false := by
  rw [Bool.eq_false_iff]
  intro upper
  simp only [isUpper, isLower, Bool.and_eq_true, decide_eq_true_eq,
    UInt8.le_iff_toNat_le, UInt8.reduceToNat] at upper lower
  omega

/-- A capital and its small letter have the same small letter. -/
theorem toLower_add_of_isUpper {octet : UInt8} (upper : isUpper octet = true) :
    toLower (octet + 0x20) = toLower octet := by
  have small := isUpper_of_isLower (isLower_add_of_isUpper upper)
  rw [toLower, toLower, small, if_neg Bool.false_ne_true, if_pos upper]

variable {octet other : UInt8}

theorem Recased.toLower_eq (recased : Recased octet other) :
    toLower octet = toLower other := by
  rcases recased with rfl | ⟨upper, rfl⟩ | ⟨upper, rfl⟩
  · rfl
  · exact (toLower_add_of_isUpper upper).symm
  · exact toLower_add_of_isUpper upper

/-- Of the forms of an octet the small letter is the one that is no capital. -/
theorem toLower_eq_iff :
  toLower octet = other ↔ Recased octet other ∧ isUpper other = false := by
  constructor
  · rintro rfl
    rw [toLower]
    split
    · rename_i upper
      exact ⟨.inr (.inl ⟨upper, rfl⟩),
        isUpper_of_isLower (isLower_add_of_isUpper upper)⟩
    · rename_i small
      exact ⟨.inl rfl, Bool.eq_false_iff.mpr small⟩
  · rintro ⟨recased, small⟩
    rw [recased.toLower_eq, toLower, small, if_neg Bool.false_ne_true]

theorem Recased.isOpcodeOctet
    (recased : Recased octet other)
    (named : Operation.isOpcodeOctet octet = true) :
    Operation.isOpcodeOctet other = true := by
  rcases recased with rfl | ⟨upper, rfl⟩ | ⟨upper, rfl⟩
  · exact named
  · simp [Operation.isOpcodeOctet, isAlphanumeric, isLower_add_of_isUpper upper]
  · simp [Operation.isOpcodeOctet, isAlphanumeric, upper]

end Octet

namespace Bytes

/--
The second text is the first one with any of its ASCII letters in the other
case.
-/
def Recased (text other : Bytes) : Prop :=
  List.Forall₂ Octet.Recased text other

instance (text other : Bytes) : Decidable (Recased text other) :=
  decidable_of_iff
    (text.length = other.length ∧
      (text.zip other).all (fun pair => decide (Octet.Recased pair.1 pair.2)) =
        true)
    (by simp only [Recased, List.forall₂_iff_zip, List.all_eq_true,
      decide_eq_true_eq, Prod.forall])

/--
The second text is the first one in small letters: of its capitals none is left.
-/
structure Lowered (text small : Bytes) : Prop where
  recased : Recased text small
  uncapped : ∀ octet ∈ small, Octet.isUpper octet = false

variable {text other : Bytes}

theorem Recased.toLower_eq (recased : Recased text other) :
    text.toLower = other.toLower := by
  induction recased with
  | nil => rfl
  | cons first rest ih =>
      rw [toLower, List.map_cons, first.toLower_eq]
      exact congrArg (List.cons _) ih

theorem lowered_iff : Lowered text other ↔ text.toLower = other := by
  constructor
  · intro lowered
    calc
      text.toLower = other.toLower := lowered.recased.toLower_eq
      _ = other.map id := List.map_congr_left fun octet member =>
          Octet.toLower_eq_iff.mpr ⟨.inl rfl, lowered.uncapped octet member⟩
      _ = other := List.map_id other
  · rintro rfl
    constructor
    · exact List.forall₂_map_right_iff.mpr
        (List.forall₂_same.mpr fun _ _ => (Octet.toLower_eq_iff.mp rfl).1)
    · intro octet member
      rcases List.mem_map.mp member with ⟨source, -, rfl⟩
      exact (Octet.toLower_eq_iff.mp rfl).2

theorem Recased.isOpcodeOctet
    (recased : Recased text other)
    (named : ∀ octet ∈ text, Operation.isOpcodeOctet octet = true) :
    ∀ octet ∈ other, Operation.isOpcodeOctet octet = true := by
  induction recased with
  | nil => exact named
  | cons first rest ih =>
      rw [List.forall_mem_cons] at named ⊢
      exact ⟨first.isOpcodeOctet named.1, ih named.2⟩

/-- A word of opcode octets stays one in any mixture of cases. -/
theorem Recased.exists_word
    (opcode : Scan.Word Operation.isOpcodeOctet)
    (recased : Recased opcode.octets other) :
    ∃ word : Scan.Word Operation.isOpcodeOctet, word.octets = other := by
  have named := recased.isOpcodeOctet opcode.accepted
  have filled : other ≠ [] := by
    rw [← List.length_pos_iff, ← recased.length_eq, List.length_pos_iff]
    exact opcode.nonempty
  exact ⟨⟨⟨other, named⟩, filled⟩, rfl⟩

end Bytes

/-! ## The longest beginning -/

namespace Family

/--
The table lists a beginning that the opcode has once it is put into small
letters.
-/
def Begins (opcode : Bytes) (entry : Bytes × Family) : Prop :=
  entry ∈ beginnings ∧ ∃ small, Bytes.Lowered opcode small ∧ entry.1 <+: small

/--
The family of the longest beginning that an opcode has; without one it is not
known.
-/
inductive Decided (opcode : Bytes) : Family → Prop where
  | longest
      {entry : Bytes × Family}
      (begins : Begins opcode entry)
      (greatest : ∀ other,
        Begins opcode other → other.1.length ≤ entry.1.length) :
      Decided opcode entry.2
  | unlisted (absent : ∀ entry, ¬Begins opcode entry) : Decided opcode .unknown

theorem begins_iff {opcode : Bytes} {entry : Bytes × Family} :
    Begins opcode entry ↔
      entry ∈ beginnings ∧ entry.1.isPrefixOf opcode.toLower = true := by
  simp only [Begins, Bytes.lowered_iff, exists_eq_left',
    List.isPrefixOf_iff_prefix]

/-- Of two beginnings that extend each other the longer one is listed first. -/
theorem beginnings_ordered :
    beginnings.Pairwise fun earlier later => ¬earlier.1 <+: later.1 := by
  decide +kernel

section Searching

variable {table : List (Bytes × Family)} {text : Bytes} {entry : Bytes × Family}

theorem greatest_of_find?
    (ordered : table.Pairwise fun earlier later => ¬earlier.1 <+: later.1)
    (found : table.find? (fun entry => entry.1.isPrefixOf text) = some entry) :
    ∀ other ∈ table,
      other.1.isPrefixOf text = true → other.1.length ≤ entry.1.length := by
  rcases List.find?_eq_some_iff_append.mp found with
    ⟨fits, before, after, rfl, passed⟩
  have below := (List.pairwise_cons.mp (List.pairwise_append.mp ordered).2.1).1
  intro other member otherFits
  rcases List.mem_append.mp member with earlier | here
  · have refused := passed other earlier
    rw [otherFits] at refused
    cases refused
  · rcases List.mem_cons.mp here with rfl | later
    · exact le_rfl
    · by_contra longer
      exact below other later (List.prefix_of_prefix_length_le
        (List.isPrefixOf_iff_prefix.mp fits)
          (List.isPrefixOf_iff_prefix.mp otherFits) (by omega))

/--
What fits and stands above the longest beginning would be a beginning of that
one.
-/
theorem find?_of_greatest
    (ordered : table.Pairwise fun earlier later => ¬earlier.1 <+: later.1)
    (listed : entry ∈ table)
    (fits : entry.1.isPrefixOf text = true)
    (greatest : ∀ other ∈ table, other.1.isPrefixOf text = true →
      other.1.length ≤ entry.1.length) :
    table.find? (fun entry => entry.1.isPrefixOf text) = some entry := by
  rcases List.append_of_mem listed with ⟨before, after, rfl⟩
  have above := (List.pairwise_append.mp ordered).2.2
  refine List.find?_eq_some_iff_append.mpr ⟨fits, before, after, rfl, ?_⟩
  intro other earlier
  rw [Bool.not_eq_true', Bool.eq_false_iff]
  intro otherFits
  have short := greatest other (List.mem_append_left _ earlier) otherFits
  exact above other earlier entry List.mem_cons_self
    (List.prefix_of_prefix_length_le
    (List.isPrefixOf_iff_prefix.mp otherFits)
      (List.isPrefixOf_iff_prefix.mp fits) short)

end Searching

theorem ofOpcode_eq_find? (opcode : Bytes) :
    ofOpcode opcode =
      ((beginnings.find? fun entry => entry.1.isPrefixOf opcode.toLower).map
        Prod.snd).getD
        .unknown := by
  rw [ofOpcode]
  split
  · rename_i beginning family same
    have found :
        beginnings.find? (fun entry => entry.1.isPrefixOf opcode.toLower) =
          some (beginning, family) := same
    rw [found, Option.map_some, Option.getD_some]
  · rename_i same
    have missed :
        beginnings.find? (fun entry => entry.1.isPrefixOf opcode.toLower) =
          none := same
    rw [missed, Option.map_none, Option.getD_none]

/-- The first beginning that fits decides like the longest one. -/
theorem ofOpcode_eq_iff (opcode : Bytes) (family : Family) :
    ofOpcode opcode = family ↔ Decided opcode family := by
  rw [ofOpcode_eq_find?]
  constructor
  · rintro rfl
    cases found : beginnings.find? fun entry =>
        entry.1.isPrefixOf opcode.toLower with
    | none =>
        refine .unlisted fun entry begins => ?_
        rw [begins_iff] at begins
        exact List.find?_eq_none.mp found entry begins.1 begins.2
    | some entry =>
        have fits := List.find?_some found
        have begins := begins_iff.mpr ⟨List.mem_of_find?_eq_some found, fits⟩
        refine .longest begins fun other otherBegins => ?_
        rw [begins_iff] at otherBegins
        exact greatest_of_find? beginnings_ordered found other otherBegins.1
          otherBegins.2
  · intro decided
    cases decided with
    | longest begins greatest =>
        rw [begins_iff] at begins
        rw [find?_of_greatest beginnings_ordered begins.1 begins.2
          fun other listed fits =>
            greatest other (begins_iff.mpr ⟨listed, fits⟩)]
        rfl
    | unlisted absent =>
        have missed :
            beginnings.find? (fun entry => entry.1.isPrefixOf opcode.toLower) =
              none :=
          List.find?_eq_none.mpr fun entry listed fits =>
            absent entry (begins_iff.mpr ⟨listed, fits⟩)
        rw [missed]
        rfl

theorem ofOpcode_recased
    {opcode recased : Bytes}
    (same : Bytes.Recased opcode recased) :
    ofOpcode recased = ofOpcode opcode := by
  rw [ofOpcode_eq_find?, ofOpcode_eq_find?, same.toLower_eq]

end Family

/-! ## Lines -/

namespace Operation

theorem isOpcodeOctet_of_isPadding
    {octet : UInt8}
    (padding : Octet.isPadding octet = true) :
    isOpcodeOctet octet = false := by
  by_contra named
  rw [Bool.not_eq_false] at named
  rw [isPadding_of_isOpcodeOctet named] at padding
  cases padding

theorem read_recased
    (opcode : Scan.Word isOpcodeOctet)
    {recased text : Bytes}
    (same : Bytes.Recased opcode.octets recased)
    (halts : Scan.Halts isOpcodeOctet text) :
    read (recased ++ text) =
      { read (opcode.octets ++ text) with opcode := recased } := by
  rcases same.exists_word opcode with ⟨word, rfl⟩
  rw [read_run_append word.toRun halts, read_run_append opcode.toRun halts,
    Family.ofOpcode_recased same]

end Operation

namespace Instruction

/-- A visible octet that is no mark begins the line. -/
def Executed (line : Bytes) : Prop :=
  ∃ octet ∈ line.trim.head?, octet ∉ marks

instance (line : Bytes) : Decidable (Executed line) :=
  decidable_of_iff (line.trim.head?.any (fun octet => decide (octet ∉ marks)) =
    true)
    (by simp only [Executed, Option.any_eq_true, decide_eq_true_eq,
      Option.mem_def])

/-- What stands behind the opcode of a line. -/
def behindOpcode (line : Bytes) : Bytes :=
  (line.dropWhile Octet.isPadding).dropWhile Operation.isOpcodeOctet

/-- The line with another opcode in the place of its own. -/
def respell (line opcode : Bytes) : Bytes :=
  line.takeWhile Octet.isPadding ++ opcode ++ behindOpcode line

theorem read_of_executed {line : Bytes} (executed : Executed line) :
    read line = .code (Operation.read line.trim) := by
  rcases executed with ⟨octet, first, unmarked⟩
  rcases List.head?_eq_some_iff.mp first with ⟨rest, trimmed⟩
  rw [trimmed]
  exact Operation.read_unmarked trimmed unmarked

theorem isCode_of_not_executed {line : Bytes} (marked : ¬Executed line) :
    (read line).isCode = false := by
  rw [read]
  split
  · rfl
  · rfl
  · rfl
  · rw [readDirective]
    split
    · rfl
    · split <;> rfl
  · rename_i octet rest noComment noLabel noDirective trimmed
    refine absurd ⟨octet, ?_, ?_⟩ marked
    · rw [trimmed]
      rfl
    · simp only [marks, List.mem_cons, List.not_mem_nil, or_false]
      rintro (rfl | rfl | rfl)
      · exact noComment rfl
      · exact noLabel rfl
      · exact noDirective rfl

/-- Trimming takes nothing from the opcode. -/
theorem takeWhile_trim (line : Bytes) :
    line.trim.takeWhile Operation.isOpcodeOctet =
      (line.dropWhile Octet.isPadding).takeWhile Operation.isOpcodeOctet := by
  have starts := Scan.halts_dropWhile Octet.isPadding line
  have trimmed : Bytes.trim (line.dropWhile Octet.isPadding) = line.trim := by
    rw [Bytes.trim, Scan.dropWhile_of_halts starts, Bytes.trim]
  rcases Bytes.exists_eq_trim_append starts with ⟨after, split⟩
  rcases Scan.exists_run Operation.isOpcodeOctet line.trim with
    ⟨opcode, same, trimSplit⟩
  have halts := (Scan.halts_dropWhile Operation.isOpcodeOctet line.trim).append
    (after.halts fun _ => Operation.isOpcodeOctet_of_isPadding)
  have longest := congrArg Prod.fst (Scan.run_append opcode halts)
  rw [← List.append_assoc, ← trimSplit, ← trimmed, ← split] at longest
  exact same.symm.trans longest.symm

theorem respell_self (line : Bytes) :
    respell line (line.trim.takeWhile Operation.isOpcodeOctet) = line := by
  rw [respell, takeWhile_trim, List.append_assoc, behindOpcode,
    List.takeWhile_append_dropWhile, List.takeWhile_append_dropWhile]

theorem read_respell
    (line : Bytes)
    (opcode : Scan.Word Operation.isOpcodeOctet) :
    read (respell line opcode.octets) =
      .code (Operation.read
        (opcode.octets ++ (behindOpcode line).rdropWhile Octet.isPadding)) := by
  have trimmed : Bytes.Trimmed opcode.octets :=
    ⟨opcode.toRun.halts fun _ => Operation.isPadding_of_isOpcodeOctet,
      opcode.halts_reverse (fun _ => Operation.isPadding_of_isOpcodeOctet) []⟩
  apply Operation.read_eq_code opcode
  rw [respell, List.append_assoc,
    Bytes.trim_padding_append fun _ => List.mem_takeWhile_imp,
    trimmed.trim_append opcode.nonempty]

/-- The case of the opcode's letters shows nowhere but in the opcode. -/
theorem read_respell_recased
    {line : Bytes}
    {operation : Operation}
    (found : read line = .code operation)
    (first : operation.opcode = line.trim.takeWhile Operation.isOpcodeOctet)
    {recased : Bytes}
    (same : Bytes.Recased operation.opcode recased) :
    read (respell line recased) =
      .code { operation with opcode := recased } := by
  have restored : respell line operation.opcode = line :=
    first ▸ respell_self line
  by_cases empty : operation.opcode = []
  · -- Without an opcode there is no letter to change.
    rw [empty, Bytes.Recased, List.forall₂_nil_left_iff] at same
    subst same
    rw [← empty, restored, found]
  · have named : ∀ octet ∈ operation.opcode,
        Operation.isOpcodeOctet octet = true := by
      rw [first]
      exact fun _ => List.mem_takeWhile_imp
    let opcode : Scan.Word Operation.isOpcodeOctet :=
      ⟨⟨operation.opcode, named⟩, empty⟩
    have halts : Scan.Halts Operation.isOpcodeOctet
        ((behindOpcode line).rdropWhile Octet.isPadding) :=
      (Scan.halts_dropWhile _ _).of_begins (List.rdropWhile_prefix _ _)
    have original : operation = Operation.read
        (opcode.octets ++ (behindOpcode line).rdropWhile Octet.isPadding) := by
      have reread := read_respell line opcode
      rw [restored, found] at reread
      exact Instruction.code.inj reread
    rcases Bytes.Recased.exists_word opcode same with ⟨word, rfl⟩
    rw [read_respell, Operation.read_recased opcode same halts, ← original]

/--
A line that begins with no mark is an instruction.  Its family is that of the
longest beginning that the opcode has in small letters, and with the letters of
the opcode in any other mixture of cases nothing but the opcode itself is read
differently.  No other line is an instruction.
-/
theorem classified_by_longest_beginning (line : Bytes) :
    (Executed line →
      ∃ operation : Operation,
        read line = .code operation ∧
        operation.opcode = line.trim.takeWhile Operation.isOpcodeOctet ∧
        (∀ family, operation.family = family ↔
          Family.Decided operation.opcode family) ∧
        respell line operation.opcode = line ∧
        ∀ recased, Bytes.Recased operation.opcode recased →
          read (respell line recased) =
            .code { operation with opcode := recased }) ∧
    (¬Executed line → (read line).isCode = false) := by
  refine ⟨fun executed => ?_, isCode_of_not_executed⟩
  have found := read_of_executed executed
  exact ⟨_, found, rfl, Family.ofOpcode_eq_iff _, respell_self line,
    fun _ => read_respell_recased found rfl⟩

/--
A call in mixed case behind a tab; two beginnings of the table fit its opcode.
-/
def mixedCall : Bytes :=
  Bytes.ofString "\tInvoke-STATIC/range \x7bv0 .. v5\x7d, La;->b()V "

/--
The call and what it becomes in another case, beside a comment that begins like
it.
-/
theorem classified_by_longest_beginning_of_mixedCall :
    Executed mixedCall ∧
    (∃ operation : Operation,
      read mixedCall = .code operation ∧
      operation.family = .invokeStatic ∧
      Family.Decided (Bytes.ofString "Invoke-STATIC/range") .invokeStatic ∧
      Bytes.Recased (Bytes.ofString "Invoke-STATIC/range")
        (Bytes.ofString "iNVOKE-static/RANGE") ∧
      read
        (Bytes.ofString "\tiNVOKE-static/RANGE \x7bv0 .. v5\x7d, La;->b()V ") =
        .code { operation with
          opcode := Bytes.ofString "iNVOKE-static/RANGE" }) ∧
    ¬Executed (Bytes.ofString "\t#invoke-static") ∧
    (read (Bytes.ofString "\t#invoke-static")).isCode = false := by
  have executed : Executed mixedCall := by
    decide +kernel
  have marked : ¬Executed (Bytes.ofString "\t#invoke-static") := by
    decide +kernel
  have recased : Bytes.Recased (Bytes.ofString "Invoke-STATIC/range")
      (Bytes.ofString "iNVOKE-static/RANGE") := by
    decide +kernel
  have respelled : respell mixedCall (Bytes.ofString "iNVOKE-static/RANGE") =
      Bytes.ofString "\tiNVOKE-static/RANGE \x7bv0 .. v5\x7d, La;->b()V " := by
    decide +kernel
  have first : mixedCall.trim.takeWhile Operation.isOpcodeOctet =
      Bytes.ofString "Invoke-STATIC/range" := by
    decide +kernel
  have family : (read mixedCall).kind = .code .invokeStatic := by
    decide +kernel
  rcases (classified_by_longest_beginning mixedCall).1 executed with
    ⟨operation, found, opcode, decided, -, blind⟩
  rw [found] at family
  have known : operation.family = .invokeStatic := Kind.code.inj family
  rw [opcode, first] at decided blind
  refine ⟨executed,
    ⟨operation, found, known, (decided _).mp known, recased, ?_⟩, marked,
    (classified_by_longest_beginning _).2 marked⟩
  rw [← respelled]
  exact blind _ recased

end Instruction

end SmaliFlow
