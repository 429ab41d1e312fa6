import SmaliFlow.Proofs.Encoding
import SmaliFlow.Text.Utf8

/-!
# Reading the octets of a text

The octets of a text are read as that text, and octets that are read without a
replacement character are those of the text they are read as.  So a text without
replacement characters is read from its own octets only.

The reader knows of a sequence only what is still missing.  The proofs put
beside each of its states the octets that have been read of the sequence.
-/

namespace SmaliFlow.Utf8

/-! ## Sequences of octets -/

/-- The octet may stand behind the second one of a sequence. -/
structure Continues (octet : UInt8) : Prop where
  low : 0x80 ≤ octet.toNat
  high : octet.toNat ≤ 0xbf

/--
The first two octets of three: of a value above 2047 that is no surrogate.
-/
structure BeginsThree (first second : UInt8) :
    Prop extends Continues second where
  firstLow : 0xe0 ≤ first.toNat
  firstHigh : first.toNat < 0xf0
  notShort : first.toNat = 0xe0 → 0xa0 ≤ second.toNat
  notSurrogate : first.toNat = 0xed → second.toNat ≤ 0x9f

/-- The first two octets of four: of a value above 65535 and below 1114112. -/
structure BeginsFour (first second : UInt8) :
    Prop extends Continues second where
  firstLow : 0xf0 ≤ first.toNat
  firstHigh : first.toNat < 0xf5
  notShort : first.toNat = 0xf0 → 0x90 ≤ second.toNat
  notLarge : first.toNat = 0xf4 → second.toNat ≤ 0x8f

/-- The well-formed sequences. -/
inductive Sequence : Bytes → Prop where
  | one {octet : UInt8} (high : octet.toNat < 0x80) :
      Sequence [octet]
  | two
      {first second : UInt8}
      (low : 0xc2 ≤ first.toNat)
      (high : first.toNat < 0xe0)
      (continues : Continues second) :
      Sequence [first, second]
  | three
      {first second third : UInt8}
      (begins : BeginsThree first second)
      (continues : Continues third) :
      Sequence [first, second, third]
  | four
      {first second third fourth : UInt8}
      (begins : BeginsFour first second)
      (thirdContinues : Continues third)
      (fourthContinues : Continues fourth) :
      Sequence [first, second, third, fourth]

theorem toNat_ofNat {value : Nat} (valid : value.isValidChar) :
    (Char.ofNat value).val.toNat = value := by
  rw [Char.ofNat, dif_pos valid]
  rfl

theorem ofNat_eq (octet : UInt8) {value : Nat} (same : value = octet.toNat) :
    UInt8.ofNat value = octet := by
  rw [same, UInt8.ofNat_toNat]

section Values

variable {first second third fourth : UInt8}

theorem utf8EncodeChar_one (high : first.toNat < 0x80) :
    String.utf8EncodeChar (Char.ofNat first.toNat) = [first] := by
  have valid : first.toNat.isValidChar := by
    unfold Nat.isValidChar
    omega
  rw [String.utf8EncodeChar.eq_def]
  dsimp only
  rw [toNat_ofNat valid, if_pos (by omega), UInt8.ofNat_toNat]

theorem utf8EncodeChar_two
    (low : 0xc2 ≤ first.toNat)
    (high : first.toNat < 0xe0)
    (continues : Continues second) :
    String.utf8EncodeChar (Char.ofNat ((first.toNat - 0xc0) * 64 +
      (second.toNat - 0x80))) =
      [first, second] := by
  rcases continues with ⟨secondLow, secondHigh⟩
  have valid :
      ((first.toNat - 0xc0) * 64 + (second.toNat - 0x80)).isValidChar := by
    unfold Nat.isValidChar
    omega
  rw [String.utf8EncodeChar.eq_def]
  dsimp only
  rw [toNat_ofNat valid, if_neg (by omega), if_pos (by omega),
    ofNat_eq first (by omega),
    ofNat_eq second (by omega)]

theorem utf8EncodeChar_three
    (begins : BeginsThree first second)
    (continues : Continues third) :
    String.utf8EncodeChar (Char.ofNat
        (((first.toNat - 0xe0) * 64 + (second.toNat - 0x80)) * 64 +
          (third.toNat - 0x80))) =
      [first, second, third] := by
  rcases begins with
    ⟨⟨secondLow, secondHigh⟩, firstLow, firstHigh, notShort, notSurrogate⟩
  rcases continues with ⟨thirdLow, thirdHigh⟩
  have valid : (((first.toNat - 0xe0) * 64 + (second.toNat - 0x80)) * 64 +
      (third.toNat - 0x80)).isValidChar := by
    unfold Nat.isValidChar
    omega
  rw [String.utf8EncodeChar.eq_def]
  dsimp only
  rw [toNat_ofNat valid, if_neg (by omega), if_neg (by omega),
    if_pos (by omega),
    ofNat_eq first (by omega), ofNat_eq second (by omega),
    ofNat_eq third (by omega)]

theorem utf8EncodeChar_four
    (begins : BeginsFour first second)
    (thirdContinues : Continues third)
    (fourthContinues : Continues fourth) :
    String.utf8EncodeChar (Char.ofNat
        ((((first.toNat - 0xf0) * 64 + (second.toNat - 0x80)) * 64 +
          (third.toNat - 0x80)) * 64 +
          (fourth.toNat - 0x80))) =
      [first, second, third, fourth] := by
  rcases begins with
    ⟨⟨secondLow, secondHigh⟩, firstLow, firstHigh, notShort, notLarge⟩
  rcases thirdContinues with ⟨thirdLow, thirdHigh⟩
  rcases fourthContinues with ⟨fourthLow, fourthHigh⟩
  have valid : ((((first.toNat - 0xf0) * 64 + (second.toNat - 0x80)) * 64 +
      (third.toNat - 0x80)) * 64 + (fourth.toNat - 0x80)).isValidChar := by
    unfold Nat.isValidChar
    omega
  rw [String.utf8EncodeChar.eq_def]
  dsimp only
  rw [toNat_ofNat valid, if_neg (by omega), if_neg (by omega),
    if_neg (by omega),
    ofNat_eq first (by omega), ofNat_eq second (by omega),
    ofNat_eq third (by omega),
    ofNat_eq fourth (by omega)]

end Values

theorem toNat_ofNat_octet {value : Nat} (small : value < 0x100) :
    (UInt8.ofNat value).toNat = value := by
  rw [UInt8.toNat_ofNat', Nat.mod_eq_of_lt small]

theorem continues_ofNat
    {value : Nat}
    (low : 0x80 ≤ value)
    (high : value ≤ 0xbf) :
    Continues (UInt8.ofNat value) := by
  constructor
  all_goals rwa [toNat_ofNat_octet (by omega)]

/-- The octets of a character are a sequence. -/
theorem sequence_utf8EncodeChar (character : Char) :
    Sequence (String.utf8EncodeChar character) := by
  have valid : character.val.toNat.isValidChar := character.valid
  unfold Nat.isValidChar at valid
  rw [String.utf8EncodeChar.eq_def]
  dsimp only
  generalize character.val.toNat = value at valid
  split
  · have first := toNat_ofNat_octet (show value < 0x100 by omega)
    exact .one (by omega)
  · split
    · have first :=
        toNat_ofNat_octet (show value / 64 % 32 + 192 < 0x100 by omega)
      exact .two (by omega) (by omega) (continues_ofNat (by omega) (by omega))
    · split
      · have first :=
          toNat_ofNat_octet (show value / 4096 % 16 + 224 < 0x100 by omega)
        have second :=
          toNat_ofNat_octet (show value / 64 % 64 + 128 < 0x100 by omega)
        refine .three ⟨continues_ofNat (by omega) (by omega), ?_, ?_, ?_, ?_⟩
          (continues_ofNat (by omega) (by omega))
        all_goals omega
      · have first :=
          toNat_ofNat_octet (show value / 262144 % 8 + 240 < 0x100 by omega)
        have second :=
          toNat_ofNat_octet (show value / 4096 % 64 + 128 < 0x100 by omega)
        refine .four ⟨continues_ofNat (by omega) (by omega), ?_, ?_, ?_, ?_⟩
          (continues_ofNat (by omega) (by omega))
            (continues_ofNat (by omega) (by omega))
        all_goals omega

/-! ## One octet -/

section Start

variable {octet : UInt8}

theorem start_one (high : octet.toNat < 0x80) (read : List Char) :
    start octet read = (.boundary, Char.ofNat octet.toNat :: read) :=
  if_pos (UInt8.lt_iff_toNat_lt.mpr high)

theorem start_two
    (low : 0xc2 ≤ octet.toNat)
    (high : octet.toNat < 0xe0)
    (read : List Char) :
    start octet read = (.inside 0 0x80 0xbf (octet.toNat - 0xc0), read) := by
  simp only [start, UInt8.lt_iff_toNat_lt, UInt8.reduceToNat]
  rw [if_neg (by omega), if_neg (by omega), if_pos high]

theorem start_three
    (low : 0xe0 ≤ octet.toNat)
    (high : octet.toNat < 0xf0)
    (read : List Char) :
    start octet read =
      (.inside 1 (if octet == 0xe0 then 0xa0 else 0x80)
        (if octet == 0xed then 0x9f else 0xbf)
        (octet.toNat - 0xe0), read) := by
  simp only [start, UInt8.lt_iff_toNat_lt, UInt8.reduceToNat]
  rw [if_neg (by omega), if_neg (by omega), if_neg (by omega), if_pos high]

theorem start_four
    (low : 0xf0 ≤ octet.toNat)
    (high : octet.toNat < 0xf5)
    (read : List Char) :
    start octet read =
      (.inside 2 (if octet == 0xf0 then 0x90 else 0x80)
        (if octet == 0xf4 then 0x8f else 0xbf)
        (octet.toNat - 0xf0), read) := by
  simp only [start, UInt8.lt_iff_toNat_lt, UInt8.reduceToNat]
  rw [if_neg (by omega), if_neg (by omega), if_neg (by omega),
    if_neg (by omega), if_pos high]

/-- An octet that begins no sequence. -/
theorem start_none
    (outside : 0x80 ≤ octet.toNat ∧ octet.toNat < 0xc2 ∨ 0xf5 ≤ octet.toNat)
    (read : List Char) :
    start octet read = (.boundary, replacement :: read) := by
  simp only [start, UInt8.lt_iff_toNat_lt, UInt8.reduceToNat]
  rcases outside with ⟨low, high⟩ | low
  · rw [if_neg (by omega), if_pos high]
  · rw [if_neg (by omega), if_neg (by omega), if_neg (by omega),
      if_neg (by omega),
      if_neg (by omega)]

end Start

section Inside

variable {octet low high : UInt8}

theorem step_last
    (accepted : low ≤ octet ∧ octet ≤ high)
    (value : Nat)
    (read : List Char) :
    step (.inside 0 low high value) read octet =
      (.boundary, Char.ofNat (value * 64 + (octet.toNat - 0x80)) :: read) := by
  rw [step, if_pos (by simpa using accepted)]

theorem step_next
    (accepted : low ≤ octet ∧ octet ≤ high)
    (missing value : Nat)
    (read : List Char) :
    step (.inside (missing + 1) low high value) read octet =
      (.inside missing 0x80 0xbf (value * 64 + (octet.toNat - 0x80)),
        read) := by
  rw [step, if_pos (by simpa using accepted)]

theorem step_refused
    (refused : ¬(low ≤ octet ∧ octet ≤ high))
    (missing value : Nat)
    (read : List Char) :
    step (.inside missing low high value) read octet =
      start octet (replacement :: read) := by
  rw [step, if_neg (by simpa using refused)]

theorem continues_iff : Continues octet ↔ 0x80 ≤ octet ∧ octet ≤ 0xbf := by
  rw [UInt8.le_iff_toNat_le, UInt8.le_iff_toNat_le]
  exact ⟨fun continues => ⟨continues.low, continues.high⟩,
    fun bounds => ⟨bounds.1, bounds.2⟩⟩

/-- The bounds of the second octet depend on the first one. -/
theorem bounds_iff
    {first least greatest : UInt8}
    (special other : UInt8)
    (leastLow : 0x80 ≤ least.toNat)
    (greatestHigh : greatest.toNat ≤ 0xbf) :
    (if first == special then least else 0x80) ≤ octet ∧
        octet ≤ (if first == other then greatest else 0xbf) ↔
      Continues octet ∧
      (first.toNat = special.toNat → least.toNat ≤ octet.toNat) ∧
        (first.toNat = other.toNat → octet.toNat ≤ greatest.toNat) := by
  have low : (0x80 : UInt8).toNat = 0x80 := rfl
  have high : (0xbf : UInt8).toNat = 0xbf := rfl
  simp only [continues_iff, UInt8.le_iff_toNat_le, beq_iff_eq,
    ← UInt8.toNat_inj]
  split <;> split <;> omega

theorem beginsThree_iff
    {first : UInt8}
    (firstLow : 0xe0 ≤ first.toNat)
    (firstHigh : first.toNat < 0xf0) :
    BeginsThree first octet ↔
      (if first == 0xe0 then 0xa0 else 0x80) ≤ octet ∧
        octet ≤ (if first == 0xed then 0x9f else 0xbf) := by
  rw [bounds_iff 0xe0 0xed (by decide) (by decide)]
  constructor
  · intro begins
    exact ⟨begins.toContinues, begins.notShort, begins.notSurrogate⟩
  · rintro ⟨continues, notShort, notSurrogate⟩
    exact ⟨continues, firstLow, firstHigh, notShort, notSurrogate⟩

theorem beginsFour_iff
    {first : UInt8}
    (firstLow : 0xf0 ≤ first.toNat)
    (firstHigh : first.toNat < 0xf5) :
    BeginsFour first octet ↔
      (if first == 0xf0 then 0x90 else 0x80) ≤ octet ∧
        octet ≤ (if first == 0xf4 then 0x8f else 0xbf) := by
  rw [bounds_iff 0xf0 0xf4 (by decide) (by decide)]
  constructor
  · intro begins
    exact ⟨begins.toContinues, begins.notShort, begins.notLarge⟩
  · rintro ⟨continues, notShort, notLarge⟩
    exact ⟨continues, firstLow, firstHigh, notShort, notLarge⟩

end Inside

/-! ## The octets of a text -/

theorem finish_cons
    (octet : UInt8)
    (bytes : Bytes)
    (state : State)
    (read : List Char) :
    finish (octet :: bytes) state read =
      finish bytes (step state read octet).1 (step state read octet).2 :=
  rfl

theorem step_boundary (octet : UInt8) (read : List Char) :
    step .boundary read octet = start octet read :=
  rfl

/-- A sequence is read as the character with these octets. -/
theorem exists_finish_sequence {octets : Bytes} (sequence : Sequence octets) :
    ∃ character, String.utf8EncodeChar character = octets ∧
      ∀ rest read, finish (octets ++ rest) .boundary read =
        finish rest .boundary (character :: read) := by
  cases sequence with
  | one high =>
      refine ⟨_, utf8EncodeChar_one high, ?_⟩
      intro rest read
      simp only [List.cons_append, List.nil_append, finish_cons, step_boundary,
        start_one high]
  | two low high continues =>
      refine ⟨_, utf8EncodeChar_two low high continues, ?_⟩
      intro rest read
      simp only [List.cons_append, List.nil_append, finish_cons, step_boundary,
        start_two low high, step_last (continues_iff.mp continues)]
  | three begins continues =>
      refine ⟨_, utf8EncodeChar_three begins continues, ?_⟩
      intro rest read
      have second :=
        (beginsThree_iff begins.firstLow begins.firstHigh).mp begins
      simp only [List.cons_append, List.nil_append, finish_cons, step_boundary,
        start_three begins.firstLow begins.firstHigh, step_next second,
        step_last (continues_iff.mp continues)]
  | four begins thirdContinues fourthContinues =>
      refine ⟨_, utf8EncodeChar_four begins thirdContinues fourthContinues, ?_⟩
      intro rest read
      have second := (beginsFour_iff begins.firstLow begins.firstHigh).mp begins
      simp only [List.cons_append, List.nil_append, finish_cons, step_boundary,
        start_four begins.firstLow begins.firstHigh, step_next second,
        step_next (continues_iff.mp thirdContinues),
        step_last (continues_iff.mp fourthContinues)]

theorem finish_utf8EncodeChar
    (character : Char)
    (rest : Bytes)
    (read : List Char) :
    finish (String.utf8EncodeChar character ++ rest) .boundary read =
      finish rest .boundary (character :: read) := by
  rcases exists_finish_sequence (sequence_utf8EncodeChar character) with
    ⟨other, same, finishes⟩
  have encoded : Bytes.encode [other] = Bytes.encode [character] := by
    rw [Bytes.encode_cons, Bytes.encode_cons, same]
  cases Bytes.encode_inj encoded
  exact finishes rest read

theorem finish_encode (characters : List Char) (read : List Char) :
    finish (Bytes.encode characters) .boundary read =
      characters.reverse ++ read := by
  induction characters generalizing read with
  | nil => rfl
  | cons character characters ih =>
      rw [Bytes.encode_cons, finish_utf8EncodeChar, ih, List.reverse_cons,
        List.append_assoc]
      rfl

/-- The octets of characters are read as these characters. -/
theorem characters_encode (text : List Char) :
    characters (Bytes.encode text) = text := by
  rw [characters, finish_encode, List.append_nil, List.reverse_reverse]

/-- The octets of a text are read as this text. -/
theorem decode_ofString (text : String) :
    decode (Bytes.ofString text) = text := by
  rw [decode, Bytes.ofString_eq_encode, characters_encode, String.ofList_toList]

/-! ## Octets read without a replacement -/

/--
The octets that have been read of the sequence in which the reader stands.
-/
inductive Pending : State → Bytes → Prop where
  | boundary :
      Pending .boundary []
  | two {first : UInt8} (low : 0xc2 ≤ first.toNat) (high : first.toNat < 0xe0) :
      Pending (.inside 0 0x80 0xbf (first.toNat - 0xc0)) [first]
  | three
      {first : UInt8}
      (low : 0xe0 ≤ first.toNat)
      (high : first.toNat < 0xf0) :
      Pending
        (.inside 1 (if first == 0xe0 then 0xa0 else 0x80)
          (if first == 0xed then 0x9f else 0xbf)
          (first.toNat - 0xe0))
        [first]
  | threeSecond {first second : UInt8} (begins : BeginsThree first second) :
      Pending (.inside 0 0x80 0xbf ((first.toNat - 0xe0) * 64 +
        (second.toNat - 0x80)))
        [first, second]
  | four
      {first : UInt8}
      (low : 0xf0 ≤ first.toNat)
      (high : first.toNat < 0xf5) :
      Pending
        (.inside 2 (if first == 0xf0 then 0x90 else 0x80)
          (if first == 0xf4 then 0x8f else 0xbf)
          (first.toNat - 0xf0))
        [first]
  | fourSecond {first second : UInt8} (begins : BeginsFour first second) :
      Pending (.inside 1 0x80 0xbf ((first.toNat - 0xf0) * 64 +
        (second.toNat - 0x80)))
        [first, second]
  | fourThird
      {first second third : UInt8}
      (begins : BeginsFour first second)
      (continues : Continues third) :
      Pending
        (.inside 0 0x80 0xbf
          (((first.toNat - 0xf0) * 64 + (second.toNat - 0x80)) * 64 +
            (third.toNat - 0x80)))
        [first, second, third]

/--
What reading an octet does: it adds a replacement, or the octet goes on with the
sequence, or it ends the sequence with the character of its octets.
-/
inductive Reads (octets : Bytes) (read : List Char) (octet : UInt8) :
    State × List Char → Prop where
  | replaces
      {state : State}
      {after : List Char}
      (member : replacement ∈ after) :
      Reads octets read octet (state, after)
  | continues {state : State} (pending : Pending state (octets ++ [octet])) :
      Reads octets read octet (state, read)
  | completes
      {character : Char}
      (encodes : String.utf8EncodeChar character = octets ++ [octet]) :
      Reads octets read octet (.boundary, character :: read)

theorem reads_start (octet : UInt8) (read : List Char) :
    Reads [] read octet (start octet read) := by
  by_cases one : octet.toNat < 0x80
  · rw [start_one one]
    exact .completes (utf8EncodeChar_one one)
  by_cases early : octet.toNat < 0xc2
  · rw [start_none (.inl ⟨by omega, early⟩)]
    exact .replaces List.mem_cons_self
  by_cases two : octet.toNat < 0xe0
  · rw [start_two (by omega) two]
    exact .continues (.two (by omega) two)
  by_cases three : octet.toNat < 0xf0
  · rw [start_three (by omega) three]
    exact .continues (.three (by omega) three)
  by_cases four : octet.toNat < 0xf5
  · rw [start_four (by omega) four]
    exact .continues (.four (by omega) four)
  · rw [start_none (.inr (by omega))]
    exact .replaces List.mem_cons_self

theorem mem_start
    {read : List Char}
    (member : replacement ∈ read)
    (octet : UInt8) :
    replacement ∈ (start octet read).2 := by
  have reads := reads_start octet read
  generalize start octet read = result at reads ⊢
  cases reads with
  | replaces added => exact added
  | continues pending => exact member
  | completes encodes => exact List.mem_cons_of_mem _ member

theorem mem_step
    {read : List Char}
    (member : replacement ∈ read)
    (state : State)
    (octet : UInt8) :
    replacement ∈ (step state read octet).2 := by
  cases state with
  | boundary => exact mem_start member octet
  | inside missing low high value =>
      by_cases accepted : low ≤ octet ∧ octet ≤ high
      · cases missing with
        | zero =>
            rw [step_last accepted]
            exact List.mem_cons_of_mem _ member
        | succ missing =>
            rw [step_next accepted]
            exact member
      · rw [step_refused accepted]
        exact mem_start (List.mem_cons_of_mem _ member) octet

/-- A replacement stays. -/
theorem mem_finish
    {read : List Char}
    (member : replacement ∈ read)
    (bytes : Bytes)
    (state : State) :
    replacement ∈ finish bytes state read := by
  induction bytes generalizing state read with
  | nil =>
      cases state with
      | boundary => exact member
      | inside missing low high value => exact List.mem_cons_of_mem _ member
  | cons octet bytes ih => exact ih (mem_step member state octet) _

/--
An octet that does not go on with the sequence in which the reader stands.
-/
theorem reads_refused
    {octet low high : UInt8}
    (refused : ¬(low ≤ octet ∧ octet ≤ high))
    (octets : Bytes)
    (missing value : Nat)
    (read : List Char) :
    Reads octets read octet (step (.inside missing low high value) read
      octet) := by
  rw [step_refused refused]
  exact .replaces (mem_start List.mem_cons_self octet)

theorem reads_step
    {state : State}
    {octets : Bytes}
    (pending : Pending state octets)
    (read : List Char)
    (octet : UInt8) :
    Reads octets read octet (step state read octet) := by
  cases pending with
  | boundary => exact reads_start octet read
  | two low high =>
      by_cases accepted : Continues octet
      · rw [step_last (continues_iff.mp accepted)]
        exact .completes (utf8EncodeChar_two low high accepted)
      · exact reads_refused (mt continues_iff.mpr accepted) ..
  | @three first low high =>
      by_cases accepted : BeginsThree first octet
      · rw [step_next ((beginsThree_iff low high).mp accepted)]
        exact .continues (.threeSecond accepted)
      · exact reads_refused (mt (beginsThree_iff low high).mpr accepted) ..
  | threeSecond begins =>
      by_cases accepted : Continues octet
      · rw [step_last (continues_iff.mp accepted)]
        exact .completes (utf8EncodeChar_three begins accepted)
      · exact reads_refused (mt continues_iff.mpr accepted) ..
  | @four first low high =>
      by_cases accepted : BeginsFour first octet
      · rw [step_next ((beginsFour_iff low high).mp accepted)]
        exact .continues (.fourSecond accepted)
      · exact reads_refused (mt (beginsFour_iff low high).mpr accepted) ..
  | fourSecond begins =>
      by_cases accepted : Continues octet
      · rw [step_next (continues_iff.mp accepted)]
        exact .continues (.fourThird begins accepted)
      · exact reads_refused (mt continues_iff.mpr accepted) ..
  | fourThird begins continues =>
      by_cases accepted : Continues octet
      · rw [step_last (continues_iff.mp accepted)]
        exact .completes (utf8EncodeChar_four begins continues accepted)
      · exact reads_refused (mt continues_iff.mpr accepted) ..

theorem encode_finish
    {state : State}
    {octets : Bytes}
    (pending : Pending state octets)
    {bytes : Bytes}
    {read : List Char}
    (kept : replacement ∉ finish bytes state read) :
    Bytes.encode (finish bytes state read).reverse =
      Bytes.encode read.reverse ++ (octets ++ bytes) := by
  induction bytes generalizing state octets read with
  | nil =>
      cases state with
      | boundary =>
          cases pending
          rw [finish, List.append_nil, List.append_nil]
      | inside missing low high value => exact absurd List.mem_cons_self kept
  | cons octet bytes ih =>
      rw [finish_cons] at kept ⊢
      have reads := reads_step pending read octet
      generalize step state read octet = result at kept reads ⊢
      cases reads with
      | replaces member => exact absurd (mem_finish member _ _) kept
      | continues pending =>
          rw [ih pending kept, List.append_assoc, List.singleton_append]
      | completes encodes =>
          rw [ih .boundary kept, List.nil_append, List.reverse_cons,
            Bytes.encode_append, Bytes.encode_cons, encodes]
          simp [Bytes.encode]

/--
Octets that are read without a replacement are those of the characters they are
read as.
-/
theorem encode_characters
    {bytes : Bytes}
    (kept : replacement ∉ characters bytes) :
    Bytes.encode (characters bytes) = bytes :=
  encode_finish .boundary (mt List.mem_reverse.mpr kept)

/-- A text without a replacement is read from its own octets only. -/
theorem decode_eq_iff
    {text : String}
    (kept : replacement ∉ text.toList)
    (bytes : Bytes) :
    decode bytes = text ↔ bytes = Bytes.ofString text := by
  constructor
  · rintro rfl
    rw [decode, String.toList_ofList] at kept
    rw [decode, Bytes.ofString_eq_encode, String.toList_ofList,
      encode_characters kept]
  · rintro rfl
    exact decode_ofString text

end SmaliFlow.Utf8
