/-
# AbstractMachine.Target — pointer width and byte order

What a program may assume about the machine it runs on: how wide a pointer is, and in which order
the bytes of an integer lie in memory. The width is any integer here. Nothing is wrong with a strange
one until an address is needed that it has no room for.
-/
import AbstractMachine.Identity

namespace AbstractMachine

/-- The order of an integer's bytes in memory. -/
inductive Endian where
  | little
  | big
  deriving DecidableEq

/-- The name of a byte order. -/
def Endian.name : Endian → String
  | little => "little"
  | big => "big"

/-- The byte order of a name. -/
def Endian.ofName? (s : String) : Option Endian :=
  [little, big].find? (·.name == s)

/-- Pointer width in bytes, and byte order. -/
structure Target where
  ptrSize : Int
  endian : Endian
  deriving DecidableEq

namespace Target

/-- Eight-byte pointers, little-endian. -/
def standard : Target where
  ptrSize := 8
  endian := .little

/-- Pointer width in bits. -/
def ptrBits (t : Target) : Int := 8 * t.ptrSize

end Target

end AbstractMachine
