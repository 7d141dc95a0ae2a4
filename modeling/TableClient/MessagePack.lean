/-!
# MessagePack

The parts of the MessagePack format that keys are written in: nil, booleans, small integers,
strings, and the heads of arrays and maps, each in its shortest form.

The format has no size from `2 ^ 32` on, and no text or map in memory comes near it. Here, where a
text may have any length, such a size is written with one byte `0xC1`, which the format never uses,
in front of the head for each full `2 ^ 32`; so every size has a head, and two sizes never have the
same one. What is said of these heads is a statement about the format for the sizes that it has.

Results:
* `head_of_lt`: the head of a size that the format has is that of the format.
* `bool_inj`: the two booleans have different bytes.
-/

namespace TableClient.MessagePack

/-- A sequence of bytes. -/
abbrev Bytes := List UInt8

/-- The big-endian bytes of `n`, modulo `256 ^ count`. -/
def bigEndian : (count : Nat) → (n : Nat) → Bytes
  | 0, _ => []
  | count + 1, n => bigEndian count (n / 256) ++ [UInt8.ofNat (n % 256)]

/-- The first bytes of a kind of value whose size is written in its head. -/
structure SizedKind where
  /-- The sizes below this are added to the byte `short`. -/
  shortBelow : Nat
  short : Nat
  /-- The first byte before a size of one byte, if there is that form. -/
  one? : Option Nat
  /-- The first byte before a size of two bytes. -/
  two : Nat
  /-- The first byte before a size of four bytes. -/
  four : Nat

/-- Strings. -/
def SizedKind.string : SizedKind := ⟨32, 0xA0, some 0xD9, 0xDA, 0xDB⟩

/-- Arrays. -/
def SizedKind.array : SizedKind := ⟨16, 0x90, none, 0xDC, 0xDD⟩

/-- Maps. -/
def SizedKind.map : SizedKind := ⟨16, 0x80, none, 0xDE, 0xDF⟩

/-- The head of a value of the given size below `2 ^ 32`. -/
def shortestHead (kind : SizedKind) (size : Nat) : Bytes :=
  if size < kind.shortBelow then [UInt8.ofNat (kind.short + size)]
  else
    match kind.one?, decide (size < 0x100) with
    | some first, true => UInt8.ofNat first :: bigEndian 1 size
    | _, _ =>
      if size < 0x10000 then UInt8.ofNat kind.two :: bigEndian 2 size
      else UInt8.ofNat kind.four :: bigEndian 4 size

/-- The head of a value of the given size. -/
def head (kind : SizedKind) (size : Nat) : Bytes :=
  List.replicate (size / 0x100000000) 0xC1 ++ shortestHead kind (size % 0x100000000)

/-- Nil. -/
def nil : Bytes := [0xC0]

/-- A boolean. -/
def bool (value : Bool) : Bytes := [if value then 0xC3 else 0xC2]

/-- An integer of one byte without sign: itself below 128, else behind the byte `0xCC`. -/
def byte (value : UInt8) : Bytes := if value < 0x80 then [value] else [0xCC, value]

/-- A string: its head and its UTF-8 bytes. -/
def string (value : String) : Bytes :=
  let bytes := value.toUTF8.data.toList
  head .string bytes.length ++ bytes

/-- An array of values that are already written. -/
def array (items : List Bytes) : Bytes := head .array items.length ++ items.flatten

/-- A map of keys and values that are already written, in order. -/
def map (entries : List (Bytes × Bytes)) : Bytes :=
  head .map entries.length ++ entries.flatMap fun entry => entry.1 ++ entry.2

/-! ## Lemmas -/

/-- The head of a size that the format has is that of the format. -/
theorem head_of_lt {kind : SizedKind} {size : Nat} (h : size < 0x100000000) :
    head kind size = shortestHead kind size := by
  simp [head, Nat.div_eq_of_lt h, Nat.mod_eq_of_lt h]

theorem bool_inj {a b : Bool} (h : bool a = bool b) : a = b := by
  cases a <;> cases b <;> first | rfl | exact absurd h (by decide)

end TableClient.MessagePack
