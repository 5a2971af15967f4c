/-! Places in a source file: byte offsets and the spans between them. -/
namespace RootedC

/-- A byte offset in a file. Offsets are 32-bit words. -/
structure Position where
  offset : Nat
  file : String
  deriving DecidableEq, Repr

namespace Position

/-- The position at byte `n` of a file; the offset is kept modulo `2 ^ 32`. -/
def ofByte (file : String) (n : Nat) : Position := ⟨n % 4294967296, file⟩

/-- The position of what stands in no file. -/
def nowhere : Position := ⟨0, "<null>"⟩

@[simp] theorem file_ofByte (file : String) (n : Nat) : (ofByte file n).file = file := rfl

theorem offset_ofByte {n : Nat} (file : String) (h : n < 4294967296) :
    (ofByte file n).offset = n := Nat.mod_eq_of_lt h

end Position

structure Span where
  start : Position
  stop : Position
  deriving DecidableEq, Repr

namespace Span

/-- The `length` bytes of a file from byte `n` on. -/
def ofBytes (file : String) (n length : Nat) : Span :=
  ⟨.ofByte file n, .ofByte file (n + length)⟩

/-- The empty span at a position. -/
def empty (p : Position) : Span := ⟨p, p⟩

end Span

end RootedC
