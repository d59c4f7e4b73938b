import DesignHierarchy.DottedPath

/-! Array indices dropped in place. The bytes of a path are looked at one by one, and
what is kept of it is cut out in slices, so a path without indices is not copied. An
offset counts bytes; a slice that would cut a character in two is refused. -/
namespace DesignHierarchy.DottedPath

structure Slice where
  start : Nat
  stop : Nat
deriving DecidableEq, Repr

namespace Slice

/-- Both offsets lie between characters of the path, and in order. -/
def Fits (path : String) (slice : Slice) : Prop :=
  slice.start ≤ slice.stop ∧ String.Pos.Raw.IsValid path ⟨slice.start⟩ ∧
    String.Pos.Raw.IsValid path ⟨slice.stop⟩

instance (path : String) (slice : Slice) : Decidable (slice.Fits path) :=
  inferInstanceAs (Decidable (_ ∧ _))

def text? (path : String) (slice : Slice) : Option String :=
  if h : slice.Fits path then
    some (path.extract (path.pos ⟨slice.start⟩ h.2.1) (path.pos ⟨slice.stop⟩ h.2.2))
  else none

end Slice

def isDigitByte (byte : UInt8) : Bool := '0'.toUInt8 ≤ byte ∧ byte ≤ '9'.toUInt8

/-- The number of digits that follow one another from this offset on. -/
def digitsFrom (bytes : ByteArray) (offset : Nat) : Nat :=
  if h : offset < bytes.size then
    if isDigitByte bytes[offset] then digitsFrom bytes (offset + 1) + 1 else 0
  else 0

/-- The offset after the index that opens at this offset, if one does. -/
def indexEnd? (bytes : ByteArray) (offset : Nat) : Option Nat :=
  if bytes[offset]? = some '['.toUInt8 then
    let digits := digitsFrom bytes (offset + 1)
    let close := offset + 1 + digits
    if 0 < digits ∧ bytes[close]? = some ']'.toUInt8 then some (close + 1) else none
  else none

theorem lt_of_indexEnd? {bytes : ByteArray} {offset stop : Nat}
    (h : indexEnd? bytes offset = some stop) : offset < stop := by
  unfold indexEnd? at h
  dsimp only at h
  split at h
  · split at h
    · cases h
      omega
    · cases h
  · cases h

/-- The slices still to be cut out, if the bytes before `copied` are done with and those before
`next` hold no further index. There are none if nothing has to be left out. -/
def slicesFrom (bytes : ByteArray) (copied next : Nat) : List Slice :=
  if next < bytes.size then
    match h : indexEnd? bytes next with
    | some stop => ⟨copied, next⟩ :: slicesFrom bytes stop stop
    | none => slicesFrom bytes copied (next + 1)
  else if copied = 0 then [] else [⟨copied, bytes.size⟩]
termination_by bytes.size - next
decreasing_by
  · have hlt := lt_of_indexEnd? h
    omega
  · omega

def slices (path : String) : List Slice := slicesFrom path.toByteArray 0 0

/-- A path without its array indices. -/
inductive Stripped where
  /-- The path itself, as it has none. -/
  | same
  | rebuilt (text : String)
deriving DecidableEq, Repr

def Stripped.text (path : String) : Stripped → String
  | .same => path
  | .rebuilt text => text

/-- Drops the indices; nothing comes back if a slice is refused. -/
def strip? (path : String) : Option Stripped :=
  match slices path with
  | [] => some .same
  | kept => (kept.mapM (Slice.text? path)).map fun texts => .rebuilt (String.join texts)

end DesignHierarchy.DottedPath
