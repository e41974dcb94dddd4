import ClockedLogic.Fault
import ClockedLogic.Word

/-!
The storage elements. On a rising edge each computes its next state from its inputs and from
the state it holds, and keeps showing the state it holds; on a falling edge the next state
takes its place.
-/

namespace ClockedLogic

/-- A register that keeps the masked bits of its input. -/
structure Latch where
  mask : Word
  held : Word
  next : Word
deriving DecidableEq, Repr

namespace Latch

def new (mask : Word) : Latch := ⟨mask, 0, 0⟩

def rise (latch : Latch) (value : Word) : Latch := { latch with next := value &&& latch.mask }

def riseLoading (latch : Latch) (value : Word) (load : Bool) : Latch :=
  if load then latch.rise value else { latch with next := latch.held }

def fall (latch : Latch) : Latch := { latch with held := latch.next }

end Latch

structure Counter where
  held : Word
  next : Word
deriving DecidableEq, Repr

namespace Counter

def new : Counter := ⟨0, 0⟩

/-- A rising edge. A reset goes before a load, and a load before an increment. -/
def rise (counter : Counter) (value : Word) (load increment reset : Bool) : Counter :=
  { counter with
    next :=
      if reset then 0
      else if load then value
      else if increment then counter.held + 1
      else counter.held }

def fall (counter : Counter) : Counter := { counter with held := counter.next }

end Counter

/-- Words by address, and the write that the next falling edge will carry out. -/
structure Memory where
  words : Array Word
  pending : Option (Nat × Word)
deriving DecidableEq, Repr

namespace Memory

/-- A memory of clear words, of which there must be one at least. -/
def new (size : Nat) : Except Fault Memory :=
  if size = 0 then .error .emptyMemory else .ok ⟨Array.replicate size 0, none⟩

/-- An address is an unsigned number and wraps around at the size of the memory. -/
def index (memory : Memory) (address : Word) : Nat := address.toNat % memory.words.size

def read (memory : Memory) (address : Word) : Word := memory.words.getD (memory.index address) 0

/-- A rising edge. Without a load the pending write is given up. -/
def rise (memory : Memory) (value : Word) (load : Bool) (address : Word) : Memory :=
  { memory with pending := if load then some (memory.index address, value) else none }

def fall (memory : Memory) : Memory :=
  match memory.pending with
  | some (index, value) => ⟨memory.words.setIfInBounds index value, none⟩
  | none => memory

end Memory

end ClockedLogic
