import Mathlib.Data.UInt

namespace OsProjects
namespace AddressSpace

/-!
# Processes with a separate stack region

The modified kernel keeps two boundaries for each process.  Code, data and heap
lie in `[PGSIZE, sz)`, page 0 stays unmapped, and the stack lies in
`[sz2, USERTOP)` and grows downwards.  Addresses and sizes are 32-bit unsigned
values and their arithmetic wraps.
-/

/-- Bytes mapped by a page. -/
def PGSIZE : Nat := 4096

/-- End of the user address space. -/
def USERTOP : Nat := 0xA0000

/-- Maximum number of `exec` arguments. -/
def MAXARG : Nat := 32

/-- The saved registers that the modelled code reads or writes. -/
structure TrapFrame where
  eip : UInt32
  esp : UInt32
  deriving DecidableEq, Inhabited

/-- The fields of `struct proc` that concern the address space.  `pgdir` is the
number of the physical page that holds the page directory. -/
structure Proc where
  sz : UInt32
  sz2 : UInt32
  pgdir : Nat
  tf : TrapFrame
  killed : Bool
  name : List UInt8
  deriving Inhabited

/-- The order of the boundaries that every system call may rely on. -/
structure Proc.Ordered (p : Proc) : Prop where
  low : PGSIZE ≤ p.sz.toNat
  middle : p.sz.toNat ≤ p.sz2.toNat
  high : p.sz2.toNat ≤ USERTOP

/-- An address of the process's own memory.  The argument is a number, not a
32-bit value: a byte past the end of the address space belongs to nobody. -/
def Proc.UserByte (p : Proc) (address : Nat) : Prop :=
  (PGSIZE ≤ address ∧ address < p.sz.toNat) ∨ (p.sz2.toNat ≤ address ∧ address < USERTOP)

instance (p : Proc) (address : Nat) : Decidable (p.UserByte address) :=
  inferInstanceAs (Decidable (_ ∨ _))

end AddressSpace
end OsProjects
