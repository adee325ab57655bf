import Mathlib.Algebra.Group.Nat.Defs

/-! What all of the kernel agrees on: pages, addresses of 32 bits, and the part of them that is the
kernel's. -/
namespace ScaraOS

def pageSize : Nat := 4096

/-- The number of addresses, and of the values of a word. -/
def wordSize : Nat := 2 ^ 32

def nrFrames : Nat := 2 ^ 20

/-- The kernel's addresses begin here. -/
def pageOffset : Nat := 0xc0000000

def uaddrOk (vaddr count : Nat) : Bool := vaddr < pageOffset ∧ count ≤ pageOffset - vaddr

end ScaraOS
