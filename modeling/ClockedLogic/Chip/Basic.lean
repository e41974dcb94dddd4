import ClockedLogic.Chip.Storage
import ClockedLogic.Primitive

/-!
A chip is what a built in gate consists of. It answers its inputs with outputs, and its state
changes on clock edges only: a rising edge prepares the next state without showing it, a
falling edge commits it. Outputs that a chip does not write stay as they are.
-/

namespace ClockedLogic

inductive Chip where
  | combinational (kind : Primitive)
  /-- A latch that loads on every edge. -/
  | latch (state : Latch)
  /-- A latch that loads when told to. -/
  | loadLatch (state : Latch)
  | counter (state : Counter)
  | memory (state : Memory)
deriving DecidableEq, Repr

inductive ChipSpec where
  | primitive (kind : Primitive)
  /-- A combinational primitive, which a clocked one is not. -/
  | combinational (kind : Primitive)
  | latch (mask : Word)
  | loadLatch (mask : Word)
  | memory (size : Nat)
  | counter
deriving DecidableEq, Repr

namespace ChipSpec

def makeCombinational (kind : Primitive) : Except Fault Chip :=
  if kind.isCombinational then .ok (.combinational kind)
  else .error (.notCombinational kind.name)

def make : ChipSpec → Except Fault Chip
  | primitive .dff => .ok (.latch (.new 1))
  | primitive .bit => .ok (.loadLatch (.new 1))
  | primitive .register => .ok (.loadLatch (.new (BitVec.allOnes 16)))
  | primitive .pc => .ok (.counter .new)
  | primitive .ram8 => (Memory.new 8).map .memory
  | primitive kind => makeCombinational kind
  | combinational kind => makeCombinational kind
  | latch mask => .ok (.latch (.new mask))
  | loadLatch mask => .ok (.loadLatch (.new mask))
  | memory size => (Memory.new size).map .memory
  | counter => .ok (.counter .new)

end ChipSpec

namespace Chip

open Primitive (input inputBit)

def overwrite : List Word → List Word → List Word
  | value :: values, _ :: outputs => value :: overwrite values outputs
  | _, outputs => outputs

/-- The outputs for given inputs, over the outputs as they were. -/
def respond (chip : Chip) (inputs outputs : List Word) : List Word :=
  match chip with
  | combinational kind => overwrite (kind.compute inputs) outputs
  | latch state | loadLatch state => overwrite [state.held] outputs
  | counter state => overwrite [state.held] outputs
  | memory state => overwrite [state.read (input inputs 2)] outputs

def rise (chip : Chip) (inputs : List Word) : Chip :=
  match chip with
  | combinational kind => combinational kind
  | latch state => latch (state.rise (input inputs 0))
  | loadLatch state => loadLatch (state.riseLoading (input inputs 0) (inputBit inputs 1))
  | counter state =>
    counter (state.rise (input inputs 0) (inputBit inputs 1) (inputBit inputs 2)
      (inputBit inputs 3))
  | memory state => memory (state.rise (input inputs 0) (inputBit inputs 1) (input inputs 2))

def fall : Chip → Chip
  | combinational kind => combinational kind
  | latch state => latch state.fall
  | loadLatch state => loadLatch state.fall
  | counter state => counter state.fall
  | memory state => memory state.fall

/-- What a falling edge shows at once, over the outputs as they were. A memory shows nothing
before it is asked again. -/
def showFallen (chip : Chip) (outputs : List Word) : List Word :=
  match chip.fall with
  | latch state | loadLatch state => overwrite [state.held] outputs
  | counter state => overwrite [state.held] outputs
  | combinational _ | memory _ => outputs

def pulse (chip : Chip) (inputs outputs : List Word) : Chip × List Word :=
  let risen := chip.rise inputs
  let shown := risen.showFallen (chip.respond inputs outputs)
  (risen.fall, risen.fall.respond inputs shown)

@[simp] theorem length_overwrite (values outputs : List Word) :
    (overwrite values outputs).length = outputs.length := by
  induction values generalizing outputs with
  | nil => rfl
  | cons value values ih =>
    cases outputs with
    | nil => rfl
    | cons output outputs => simp [overwrite, ih]

/-- A rising edge does not show. -/
theorem respond_rise (chip : Chip) (earlier inputs outputs : List Word) :
    (chip.rise earlier).respond inputs outputs = chip.respond inputs outputs := by
  cases chip with
  | loadLatch state =>
    simp only [rise, respond, Latch.riseLoading, Latch.rise]
    split <;> rfl
  | _ => rfl

end Chip

end ClockedLogic
