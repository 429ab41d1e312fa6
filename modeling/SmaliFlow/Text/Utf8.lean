import SmaliFlow.Text.Bytes

/-!
# Reading octets as text

Octets are read as UTF-8.  Every maximal beginning of a well-formed sequence
that is not continued, and every octet that begins no sequence, becomes one
replacement character; all well-formed sequences are kept.

The reader takes one octet at a time.  Between octets it is either at a
boundary or inside a sequence, of which it knows the number of octets still
missing, the range of the next one and the value read so far.
-/

namespace SmaliFlow.Utf8

/-- The character that stands for ill-formed octets. -/
def replacement : Char :=
  '\uFFFD'

/-- Where the reader stands between two octets. -/
inductive State where
  /-- No sequence is open. -/
  | boundary
  /--
  `missing + 1` octets are still to come, the next one between `low` and `high`.
  -/
  | inside (missing : Nat) (low high : UInt8) (value : Nat)
deriving DecidableEq, Repr

/--
Read an octet that begins a sequence, adding to the characters read so far.
-/
def start (octet : UInt8) (read : List Char) : State × List Char :=
  if octet < 0x80 then
    (.boundary, Char.ofNat octet.toNat :: read)
  else if octet < 0xc2 then
    (.boundary, replacement :: read)
  else if octet < 0xe0 then
    (.inside 0 0x80 0xbf (octet.toNat - 0xc0), read)
  else if octet < 0xf0 then
    let low : UInt8 := if octet == 0xe0 then 0xa0 else 0x80
    let high : UInt8 := if octet == 0xed then 0x9f else 0xbf
    (.inside 1 low high (octet.toNat - 0xe0), read)
  else if octet < 0xf5 then
    let low : UInt8 := if octet == 0xf0 then 0x90 else 0x80
    let high : UInt8 := if octet == 0xf4 then 0x8f else 0xbf
    (.inside 2 low high (octet.toNat - 0xf0), read)
  else
    (.boundary, replacement :: read)

/-- Read one octet.  The characters read so far are kept in reverse. -/
def step (state : State) (read : List Char) (octet : UInt8) :
    State × List Char :=
  match state with
  | .boundary => start octet read
  | .inside missing low high value =>
      if low ≤ octet && octet ≤ high then
        let value := value * 64 + (octet.toNat - 0x80)
        match missing with
        | 0 => (.boundary, Char.ofNat value :: read)
        | missing + 1 => (.inside missing 0x80 0xbf value, read)
      else
        start octet (replacement :: read)

/-- Read all octets and close a sequence that the end cuts short. -/
def finish : (bytes : Bytes) → State → (read : List Char) → List Char
  | [], .boundary, read => read
  | [], .inside _ _ _ _, read => replacement :: read
  | octet :: bytes, state, read =>
      let (state, read) := step state read octet
      finish bytes state read

/-- The characters of an octet string. -/
def characters (bytes : Bytes) : List Char :=
  (finish bytes .boundary []).reverse

/-- The text of an octet string. -/
def decode (bytes : Bytes) : String :=
  String.ofList (characters bytes)

end SmaliFlow.Utf8
