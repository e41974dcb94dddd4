import ClockedLogic.Blueprint.Build
import Mathlib.Logic.Relation
import Mathlib.Tactic.Common

/-!
What the wires of a composite component promise. Every wire joins bits of a part pin to equally
many bits of a pin of the owner or to a constant, and no bit is driven twice: a component fits if
this holds at every depth, as it does for whatever can be built. Standard components are the
primitives and whatever can be built from standard components without declaring clocked pins; in
these, the parts of every component also depend on each other in an order, and clocked pins are
what they seem. Such a component is well wired.
-/

namespace ClockedLogic

namespace BitSpan

def Covers (span : BitSpan) (bit : Nat) : Prop := span.low ≤ bit ∧ bit ≤ span.high

instance (span : BitSpan) (bit : Nat) : Decidable (span.Covers bit) :=
  inferInstanceAs (Decidable (_ ∧ _))

theorem overlaps_iff {a b : BitSpan} :
    a.overlaps b = true ↔ ∃ bit, a.Covers bit ∧ b.Covers bit := by
  simp only [overlaps, bne_iff_ne, ne_eq, Covers]
  constructor
  · intro h
    by_contra hnone
    apply h
    apply BitVec.eq_of_getLsbD_eq
    intro i _
    rw [BitVec.getLsbD_and, getLsbD_mask, getLsbD_mask,
      show BitVec.getLsbD (0 : Word) i = false from BitVec.getLsbD_zero]
    by_contra hbit
    exact hnone ⟨i, by simpa [and_assoc] using hbit⟩
  · intro hexists h
    obtain ⟨i, ⟨hal, hah⟩, hbl, hbh⟩ := hexists
    have hbit := congrArg (·.getLsbD i) h
    simp [getLsbD_mask, hal, hah, hbl, hbh] at hbit

theorem covers_whole {width bit : Nat} (h : bit < width) (hle : width ≤ 16) :
    (whole width).Covers bit := by
  simp only [Covers, whole]
  omega

theorem covers_iff_exists {span : BitSpan} {bit : Nat} :
    span.Covers bit ↔ ∃ position < span.width, bit = span.low + position := by
  have hle := span.low_le_high
  simp only [Covers, width]
  constructor
  · intro hcovers
    exact ⟨bit - span.low, by omega, by omega⟩
  · rintro ⟨position, hposition, rfl⟩
    omega

theorem overlaps_self (span : BitSpan) : span.overlaps span = true :=
  overlaps_iff.mpr ⟨span.low, ⟨Nat.le_refl _, span.low_le_high⟩, Nat.le_refl _, span.low_le_high⟩

theorem overlaps_comm (a b : BitSpan) : a.overlaps b = b.overlaps a := by
  rw [Bool.eq_iff_iff, overlaps_iff, overlaps_iff]
  exact exists_congr fun _ => and_comm

end BitSpan

def PinRole.vertex : PinRole → Nat → Vertex
  | .input, index => .input index
  | .output, index => .output index
  | .internal, index => .internal index

theorem Pin.vertex_eq (pin : Pin) : pin.vertex = pin.role.vertex pin.index := by
  unfold Pin.vertex
  cases pin.role <;> rfl

def Pin.Has (pin : Pin) (bits : Option BitSpan) : Prop := ∀ span ∈ bits, span.high < pin.width

/-- The bits that are meant are bits of the pin. -/
theorem Pin.Has.lt_of_covers {pin : Pin} {bits : Option BitSpan} (h : pin.Has bits)
    (hlow : 1 ≤ pin.width) {bit : Nat} (hcovers : (pin.spanOf bits).Covers bit) :
    bit < pin.width := by
  have hhigh := hcovers.2
  cases bits with
  | some span => exact Nat.lt_of_le_of_lt hhigh (h span rfl)
  | none =>
    simp only [spanOf, Option.getD_none, BitSpan.whole] at hhigh
    omega

theorem Pin.width_spanOf {pin : Pin} (hlow : 1 ≤ pin.width) (hhigh : pin.width ≤ 16)
    (bits : Option BitSpan) : (pin.spanOf bits).width = pin.widthOf bits := by
  cases bits with
  | some span => rfl
  | none =>
    simp only [spanOf, Option.getD_none, BitSpan.whole, BitSpan.width, widthOf]
    omega

def PinsInOrder (role : PinRole) (pins : List Pin) : Prop :=
  ∀ (index : Nat) (pin : Pin), pins[index]? = some pin →
    pin.role = role ∧ pin.index = index ∧ 1 ≤ pin.width ∧ pin.width ≤ 16

/-- A declared pin stands at its place among the inputs or the outputs. -/
theorem PinsInOrder.place_cases {inputs outputs : List Pin} (hinputs : PinsInOrder .input inputs)
    (houtputs : PinsInOrder .output outputs) {pin : Pin} (hpin : pin ∈ inputs ++ outputs) :
    pin.role = .input ∧ inputs[pin.index]? = some pin ∨
      pin.role = .output ∧ outputs[pin.index]? = some pin := by
  rcases List.mem_append.mp hpin with hinput | houtput
  · obtain ⟨index, hindex⟩ := List.mem_iff_getElem?.mp hinput
    obtain ⟨hrole, rfl, -⟩ := hinputs index _ hindex
    exact .inl ⟨hrole, hindex⟩
  · obtain ⟨index, hindex⟩ := List.mem_iff_getElem?.mp houtput
    obtain ⟨hrole, rfl, -⟩ := houtputs index _ hindex
    exact .inr ⟨hrole, hindex⟩

/-- Where pins stand in their order, the pins are those that stand at their places. -/
theorem mem_pins_iff_getElem? {pinsOf : PinRole → List Pin}
    (h : ∀ role, PinsInOrder role (pinsOf role)) {pin : Pin} :
    pin ∈ pinsOf .input ++ pinsOf .output ++ pinsOf .internal ↔
      (pinsOf pin.role)[pin.index]? = some pin := by
  have hroles : pin ∈ pinsOf .input ++ pinsOf .output ++ pinsOf .internal ↔
      ∃ role, pin ∈ pinsOf role := by
    rw [List.mem_append, List.mem_append, or_assoc]
    constructor
    · rintro (hinput | houtput | hinternal)
      · exact ⟨.input, hinput⟩
      · exact ⟨.output, houtput⟩
      · exact ⟨.internal, hinternal⟩
    · rintro ⟨role, hmem⟩
      cases role with
      | input => exact .inl hmem
      | output => exact .inr (.inl hmem)
      | internal => exact .inr (.inr hmem)
  rw [hroles]
  constructor
  · rintro ⟨role, hmem⟩
    obtain ⟨index, hindex⟩ := List.mem_iff_getElem?.mp hmem
    obtain ⟨rfl, rfl, -⟩ := h role index pin hindex
    exact hindex
  · intro hget
    exact ⟨pin.role, List.mem_of_getElem? hget⟩

inductive Wire.Fits (part : Component) (pinsOf : PinRole → List Pin) : Wire → Prop where
  /-- An input tied to a constant. -/
  | tied {index : Nat} {bits : Option BitSpan} {pin : Pin} {owner : Endpoint}
    (hpin : part.inputs[index]? = some pin) (hbits : pin.Has bits)
    (hconstant : owner = .ones ∨ owner = .zeros) :
    Fits part pinsOf ⟨.input, index, bits, owner, none⟩
  /-- An input that reads an input or an internal pin. -/
  | read {index farIndex : Nat} {bits farBits : Option BitSpan} {pin far : Pin} {role : PinRole}
    (hpin : part.inputs[index]? = some pin) (hbits : pin.Has bits)
    (hrole : role ≠ .output) (hfar : (pinsOf role)[farIndex]? = some far)
    (hfarBits : far.Has farBits) (hwidth : pin.widthOf bits = far.widthOf farBits) :
    Fits part pinsOf ⟨.input, index, bits, .pin role farIndex, farBits⟩
  /-- An output that drives an output or an internal pin. -/
  | drive {index farIndex : Nat} {bits farBits : Option BitSpan} {pin far : Pin} {role : PinRole}
    (hpin : part.outputs[index]? = some pin) (hbits : pin.Has bits)
    (hrole : role ≠ .input) (hfar : (pinsOf role)[farIndex]? = some far)
    (hfarBits : far.Has farBits) (hwidth : pin.widthOf bits = far.widthOf farBits) :
    Fits part pinsOf ⟨.output, index, bits, .pin role farIndex, farBits⟩

/-- What depends on what through the wires of some parts. An input that is only read on clock
edges makes no dependency. -/
inductive Dependency (parts : List (Part Component)) : Vertex → Vertex → Prop where
  | read {part : Part Component} {wire : Wire} {role : PinRole} {index : Nat}
    (hpart : part ∈ parts) (hwire : wire ∈ part.wires) (hinput : wire.partRole = .input)
    (howner : wire.owner = .pin role index)
    (hclocked : part.component.isInputClocked wire.partIndex = false) :
    Dependency parts (role.vertex index) (.part part.position)
  | drive {part : Part Component} {wire : Wire} {role : PinRole} {index : Nat}
    (hpart : part ∈ parts) (hwire : wire ∈ part.wires) (houtput : wire.partRole = .output)
    (howner : wire.owner = .pin role index) :
    Dependency parts (.part part.position) (role.vertex index)

structure Fitting (interface : Interface) (internals : List Pin) (parts : List (Part Component))
    (pinsOf : PinRole → List Pin) : Prop where
  inputs : PinsInOrder .input interface.inputs
  outputs : PinsInOrder .output interface.outputs
  internals : PinsInOrder .internal internals
  positions : (parts.map (·.position)).Nodup
  fits : ∀ part ∈ parts, ∀ wire ∈ part.wires, wire.Fits part.component pinsOf
  nodup : ∀ part ∈ parts, part.wires.Nodup
  /-- Two wires into one input of a part take different bits of it. -/
  inputs_apart : ∀ part ∈ parts, ∀ a ∈ part.wires, ∀ b ∈ part.wires, a ≠ b →
    a.partRole = .input → b.partRole = .input → a.partIndex = b.partIndex →
    ∀ pin, part.component.inputs[a.partIndex]? = some pin →
    (pin.spanOf a.partBits).overlaps (pin.spanOf b.partBits) = false
  /-- Two wires into one pin of the owner take different bits of it. -/
  outputs_apart : ∀ part ∈ parts, ∀ other ∈ parts, ∀ a ∈ part.wires, ∀ b ∈ other.wires,
    ¬ (part.position = other.position ∧ a = b) →
    a.partRole = .output → b.partRole = .output → ∀ role index, a.owner = .pin role index →
    b.owner = .pin role index → ∀ pin, (pinsOf role)[index]? = some pin →
    (pin.spanOf a.ownerBits).overlaps (pin.spanOf b.ownerBits) = false

/-- What holds of the wires of a composite component whose clocked pins are all inferred. It may
take part in clock edges although none of its parts does. -/
structure Wiring (interface : Interface) (internals : List Pin) (parts : List (Part Component))
    (pinsOf : PinRole → List Pin) : Prop extends Fitting interface internals parts pinsOf where
  /-- The parts can be put in an order. -/
  ranked : ∃ rank : Vertex → Nat, ∀ a b, Dependency parts a b → rank a < rank b
  /-- No output depends on a clocked input. -/
  cutOff : ∀ index, interface.clockedInputs.getD index false = true →
    ∀ output < interface.outputs.length,
      ¬ Relation.ReflTransGen (Dependency parts) (.input index) (.output output)
  /-- No clocked output depends on an input. -/
  outputs_cutOff : ∀ output, interface.clockedOutputs.getD output false = true →
    ∀ index < interface.inputs.length,
      ¬ Relation.ReflTransGen (Dependency parts) (.input index) (.output output)
  /-- What has a part that takes part in clock edges does so itself. -/
  clocked : ∀ part ∈ parts, part.component.isClocked = true → interface.isClocked = true

/-- All wires at all depths join what is there, and no bit twice. -/
inductive Fitted : Component → Prop where
  | builtIn {interface : Interface} {chip : ChipSpec}
    (hinputs : PinsInOrder .input interface.inputs)
    (houtputs : PinsInOrder .output interface.outputs) : Fitted (.builtIn interface chip)
  | composite {interface : Interface} {internals : List Pin} {parts : List (Part Component)}
    {dependencies : Digraph Vertex} (hparts : ∀ part ∈ parts, Fitted part.component)
    (hfitting : Fitting interface internals parts
      (Component.composite interface internals parts dependencies).pinsOf) :
    Fitted (.composite interface internals parts dependencies)

/-- All wires at all depths keep their promises. -/
inductive WellWired : Component → Prop where
  | primitive (kind : Primitive) : WellWired kind.component
  | composite {interface : Interface} {internals : List Pin} {parts : List (Part Component)}
    {dependencies : Digraph Vertex} (hparts : ∀ part ∈ parts, WellWired part.component)
    (hwiring : Wiring interface internals parts
      (Component.composite interface internals parts dependencies).pinsOf) :
    WellWired (.composite interface internals parts dependencies)

/-- The standard primitives, and whatever is built of components that have been built. -/
inductive Built : Component → Prop where
  | primitive (kind : Primitive) : Built kind.component
  | build {blueprint : Blueprint} {component : Component}
    (hparts : ∀ part ∈ blueprint.parts, Built part.1)
    (hbuild : blueprint.build = .ok component) : Built component

/-- The standard primitives, and whatever is built of standard components without declaring
clocked pins. -/
inductive Standard : Component → Prop where
  | primitive (kind : Primitive) : Standard kind.component
  | composite {blueprint : Blueprint} {component : Component} (hchip : blueprint.chip = none)
    (hclocked : blueprint.clocked = [])
    (hparts : ∀ part ∈ blueprint.parts, Standard part.1)
    (hbuild : blueprint.build = .ok component) : Standard component

theorem Standard.built {component : Component} (h : Standard component) : Built component := by
  induction h with
  | primitive kind => exact .primitive kind
  | composite _ _ _ hbuild ih => exact .build ih hbuild

/-- A result that passes a test is a value that does. -/
theorem exists_of_any_toOption {ε α : Type} {result : Except ε α} {test : α → Bool}
    (h : result.toOption.any test = true) : ∃ value, result = .ok value ∧ test value = true := by
  cases result with
  | error error => cases h
  | ok value => exact ⟨value, rfl, h⟩

/-- A register that is fed back through an inverter. -/
def Blueprint.toggler : Blueprint where
  name := "Toggler"
  inputs := []
  outputs := [("out", 1)]
  clocked := []
  parts := [(Primitive.not.component, [("in", "state"), ("out", "next")]),
    (Primitive.dff.component, [("in", "next"), ("out", "state"), ("out", "out")])]
  chip := none

theorem Blueprint.exists_toggler :
    ∃ component, toggler.build = .ok component ∧ Standard component := by
  have hok : (toggler.build.toOption.any fun _ => true) = true := by decide +kernel
  obtain ⟨component, hbuild, -⟩ := exists_of_any_toOption hok
  refine ⟨component, hbuild, .composite rfl rfl (fun part hpart => ?_) hbuild⟩
  simp only [toggler, List.mem_cons, List.not_mem_nil, or_false] at hpart
  rcases hpart with rfl | rfl
  · exact .primitive .not
  · exact .primitive .dff

/-- A register behind an inverter. -/
def Blueprint.delay : Blueprint where
  name := "Delay"
  inputs := [("in", 1)]
  outputs := [("out", 1)]
  clocked := []
  parts := [(Primitive.not.component, [("in", "in"), ("out", "inverted")]),
    (Primitive.dff.component, [("in", "inverted"), ("out", "out")])]
  chip := none

theorem Blueprint.standard_parts_delay : ∀ part ∈ delay.parts, Standard part.1 := by
  intro part hpart
  simp only [delay, List.mem_cons, List.not_mem_nil, or_false] at hpart
  rcases hpart with rfl | rfl
  · exact .primitive .not
  · exact .primitive .dff

/-- Its input and its output are found to be clocked. -/
theorem Blueprint.exists_delay : ∃ component, delay.build = .ok component ∧ Standard component ∧
    component.inputs = [⟨"in", 1, .input, 0⟩] ∧ component.parts.length = 2 ∧
      component.isInputClocked 0 = true ∧ component.isOutputClocked 0 = true := by
  have hok : (delay.build.toOption.any fun component =>
      component.inputs = [⟨"in", 1, .input, 0⟩] && component.parts.length = 2 &&
        component.isInputClocked 0 && component.isOutputClocked 0) = true := by decide +kernel
  obtain ⟨component, hbuild, hpins⟩ := exists_of_any_toOption hok
  simp only [Bool.and_eq_true, decide_eq_true_eq, and_assoc] at hpins
  exact ⟨component, hbuild, .composite rfl rfl standard_parts_delay hbuild, hpins⟩

theorem pinsInOrder_ofDeclarations {role : PinRole} {declarations : List (String × Nat)}
    (h : ∀ declaration ∈ declarations, 1 ≤ declaration.2 ∧ declaration.2 ≤ 16) :
    PinsInOrder role (Pin.ofDeclarations role declarations) := by
  intro index pin hpin
  simp only [Pin.ofDeclarations, List.getElem?_map, Option.map_eq_some_iff] at hpin
  obtain ⟨⟨declaration, position⟩, hget, rfl⟩ := hpin
  rw [List.getElem?_zipIdx, Option.map_eq_some_iff] at hget
  obtain ⟨found, hfound, heq⟩ := hget
  obtain ⟨rfl, rfl⟩ := Prod.mk.inj heq
  exact ⟨rfl, by simp, h _ (List.mem_of_getElem? hfound)⟩

namespace Primitive

theorem width_input (kind : Primitive) :
    ∀ pin ∈ kind.inputs, 1 ≤ pin.2 ∧ pin.2 ≤ 16 := by
  cases kind <;> decide

theorem width_output (kind : Primitive) :
    ∀ pin ∈ kind.outputs, 1 ≤ pin.2 ∧ pin.2 ≤ 16 := by
  cases kind <;> decide

end Primitive

/-- The pins of fitted components stand in their order. -/
theorem Fitted.pinsInOrder {component : Component} (h : Fitted component) (role : PinRole) :
    PinsInOrder role (component.pinsOf role) := by
  cases h with
  | builtIn hinputs houtputs =>
    cases role with
    | input => exact hinputs
    | output => exact houtputs
    | internal => intro index pin hpin; cases hpin
  | composite hparts hfitting =>
    cases role with
    | input => exact hfitting.inputs
    | output => exact hfitting.outputs
    | internal => exact hfitting.internals

theorem Fitted.primitive (kind : Primitive) : Fitted kind.component :=
  .builtIn (pinsInOrder_ofDeclarations kind.width_input)
    (pinsInOrder_ofDeclarations kind.width_output)

theorem WellWired.fitted {component : Component} (h : WellWired component) : Fitted component := by
  induction h with
  | primitive kind => exact .primitive kind
  | composite _ hwiring ih => exact .composite ih hwiring.toFitting

end ClockedLogic
