/-!
# UTF-8

Octets are read from left to right by a machine that stands either between two characters or within
one. Within a character it knows how many octets are still owed and which range the next one must
lie in; that range rules out overlong forms, surrogates and code points past the last one.

## Main definitions

* `Utf8.Malformed`: where and how a sequence of octets fails to be UTF-8.
* `Utf8.decode`: the characters of a sequence of octets.
* `Utf8.encode`: the octets of a list of characters.
-/

namespace Treewalk.Utf8

/-- Why a sequence of octets is not UTF-8. The index is that of the first octet of the character
that cannot be read. -/
inductive Malformed
  /-- The `length` octets from `index` on begin no character, or the next octet cannot continue
  them. -/
  | invalid (length index : Nat)
  /-- The text ends within a character. -/
  | incomplete (index : Nat)
  deriving DecidableEq

/-- The wording of a decoding failure. -/
def Malformed.message : Malformed → String
  | .invalid length index =>
    s!"invalid utf-8 sequence of {length} bytes from index {index}"
  | .incomplete index => s!"incomplete utf-8 byte sequence from index {index}"

/-- A character of which some octets have been read. -/
structure Pending where
  /-- How many octets are owed after the next one. -/
  more : Nat
  /-- The least admissible next octet. -/
  low : Nat
  /-- The greatest admissible next octet. -/
  high : Nat
  /-- The bits collected so far. -/
  bits : Nat
  /-- How many octets have been read. -/
  seen : Nat

/-- What a first octet begins: a whole character, or a character with octets owed. -/
def lead? (octet : Nat) : Option (Char ⊕ Pending) :=
  if octet < 0x80 then some (.inl (Char.ofNat octet))
  else if octet < 0xC2 then none
  else if octet < 0xE0 then some (.inr ⟨0, 0x80, 0xBF, octet % 32, 1⟩)
  else if octet = 0xE0 then some (.inr ⟨1, 0xA0, 0xBF, octet % 16, 1⟩)
  else if octet = 0xED then some (.inr ⟨1, 0x80, 0x9F, octet % 16, 1⟩)
  else if octet < 0xF0 then some (.inr ⟨1, 0x80, 0xBF, octet % 16, 1⟩)
  else if octet = 0xF0 then some (.inr ⟨2, 0x90, 0xBF, octet % 8, 1⟩)
  else if octet < 0xF4 then some (.inr ⟨2, 0x80, 0xBF, octet % 8, 1⟩)
  else if octet = 0xF4 then some (.inr ⟨2, 0x80, 0x8F, octet % 8, 1⟩)
  else none

/-- What an admissible next octet makes of a character that is being read. -/
def Pending.push (p : Pending) (octet : Nat) : Char ⊕ Pending :=
  let bits := p.bits * 64 + octet % 64
  match p.more with
  | 0 => .inl (Char.ofNat bits)
  | more + 1 => .inr ⟨more, 0x80, 0xBF, bits, p.seen + 1⟩

/-- Reads on from octet number `index` between two characters, or within the character `pending`
that began there. The characters read so far are in `done`, the last one first. -/
def decodeFrom (index : Nat) (done : List Char) :
    Option Pending → List UInt8 → Except Malformed (List Char)
  | none, [] => .ok done.reverse
  | some _, [] => .error (.incomplete index)
  | none, octet :: rest =>
    match lead? octet.toNat with
    | none => .error (.invalid 1 index)
    | some (.inl c) => decodeFrom (index + 1) (c :: done) none rest
    | some (.inr pending) => decodeFrom index done (some pending) rest
  | some p, octet :: rest =>
    if p.low ≤ octet.toNat ∧ octet.toNat ≤ p.high then
      match p.push octet.toNat with
      | .inl c => decodeFrom (index + p.seen + 1) (c :: done) none rest
      | .inr pending => decodeFrom index done (some pending) rest
    else .error (.invalid p.seen index)

/-- The characters of a sequence of octets, or the first place that is not UTF-8. -/
def decode (octets : List UInt8) : Except Malformed (List Char) :=
  decodeFrom 0 [] none octets

/-- The octets of a character. -/
def encodeChar (c : Char) : List UInt8 :=
  let n := c.toNat
  if n < 0x80 then [n.toUInt8]
  else if n < 0x800 then [(0xC0 + n / 64).toUInt8, (0x80 + n % 64).toUInt8]
  else if n < 0x10000 then
    [(0xE0 + n / 4096).toUInt8, (0x80 + n / 64 % 64).toUInt8, (0x80 + n % 64).toUInt8]
  else
    [(0xF0 + n / 262144).toUInt8, (0x80 + n / 4096 % 64).toUInt8, (0x80 + n / 64 % 64).toUInt8,
      (0x80 + n % 64).toUInt8]

/-- The octets of a list of characters. -/
def encode (cs : List Char) : List UInt8 :=
  cs.flatMap encodeChar

end Treewalk.Utf8
