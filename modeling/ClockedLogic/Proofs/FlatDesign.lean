import ClockedLogic.Proofs.Wiring

/-!
The flat design of a component: the built in gates at all depths, and the wires of all depths
between them, bit by bit. A gate is found by the positions of the parts that lead to it from the
outside in, and gates supply each other through wires only. A part is open if whatever it reads from
pins between parts gets to whatever it drives. Parts of one component that feed each other in a
circle need not be a loop of gates, but open ones are.
-/

namespace ClockedLogic

structure PinBit where
  /-- The positions of the parts that lead to the owner of the pin, from the outside in. -/
  path : List Nat
  role : PinRole
  index : Nat
  bit : Nat

def PinBit.under (position : Nat) (point : PinBit) : PinBit :=
  { point with path := position :: point.path }

namespace Component

inductive Holds : Component → List Nat → Component → Prop where
  | self (component : Component) : Holds component [] component
  | part {owner inner : Component} {part : Part Component} {path : List Nat}
    (hpart : part ∈ owner.parts) (hinner : Holds part.component path inner) :
    Holds owner (part.position :: path) inner

inductive Carries : Component → PinBit → PinBit → Prop where
  /-- From a pin of the owner to an input of a part. -/
  | read {owner : Component} {part : Part Component} {wire : Wire} {pin far : Pin} {role : PinRole}
    {index offset : Nat} (hpart : part ∈ owner.parts) (hwire : wire ∈ part.wires)
    (hinput : wire.partRole = .input) (howner : wire.owner = .pin role index)
    (hpin : part.component.inputs[wire.partIndex]? = some pin)
    (hfar : (owner.pinsOf role)[index]? = some far)
    (hoffset : offset < (pin.spanOf wire.partBits).width) :
    Carries owner ⟨[], role, index, (far.spanOf wire.ownerBits).low + offset⟩
      ⟨[part.position], .input, wire.partIndex, (pin.spanOf wire.partBits).low + offset⟩
  /-- From an output of a part to a pin of the owner. -/
  | drive {owner : Component} {part : Part Component} {wire : Wire} {pin far : Pin} {role : PinRole}
    {index offset : Nat} (hpart : part ∈ owner.parts) (hwire : wire ∈ part.wires)
    (houtput : wire.partRole = .output) (howner : wire.owner = .pin role index)
    (hpin : part.component.outputs[wire.partIndex]? = some pin)
    (hfar : (owner.pinsOf role)[index]? = some far)
    (hoffset : offset < (pin.spanOf wire.partBits).width) :
    Carries owner
      ⟨[part.position], .output, wire.partIndex, (pin.spanOf wire.partBits).low + offset⟩
      ⟨[], role, index, (far.spanOf wire.ownerBits).low + offset⟩
  /-- Inside a part. -/
  | inside {owner : Component} {part : Part Component} {source target : PinBit}
    (hpart : part ∈ owner.parts) (hinner : Carries part.component source target) :
    Carries owner (source.under part.position) (target.under part.position)

def HasEntry (component : Component) (index bit : Nat) : Prop :=
  component.isInputClocked index = false ∧
    ∃ pin, component.inputs[index]? = some pin ∧ bit < pin.width

def HasExit (component : Component) (index bit : Nat) : Prop :=
  ∃ pin, component.outputs[index]? = some pin ∧ bit < pin.width

inductive Takes (component : Component) (path : List Nat) : PinBit → Prop where
  | intro {gate : Component} {index bit : Nat} (hgate : component.Holds path gate)
    (hbuiltIn : gate.isBuiltIn = true) (hentry : gate.HasEntry index bit) :
    Takes component path ⟨path, .input, index, bit⟩

inductive Gives (component : Component) (path : List Nat) : PinBit → Prop where
  | intro {gate : Component} {index bit : Nat} (hgate : component.Holds path gate)
    (hbuiltIn : gate.isBuiltIn = true) (hexit : gate.HasExit index bit) :
    Gives component path ⟨path, .output, index, bit⟩

/-- Whether an output of a built in gate feeds, through wires only, an input of another one that is
not clocked. -/
def Supplies (component : Component) (gate other : List Nat) : Prop :=
  ∃ exit entry, component.Gives gate exit ∧ component.Takes other entry ∧
    Relation.ReflTransGen component.Carries exit entry

/-- Whether some built in gate supplies itself, directly or through other ones. -/
def HasLoop (component : Component) : Prop :=
  ∃ gate, Relation.TransGen component.Supplies gate gate

/-- Whether a bit gets to another one through wires and at least one built in gate. -/
def Passes (component : Component) (source target : PinBit) : Prop :=
  ∃ first last entry exit, Relation.ReflTransGen component.Carries source entry ∧
    component.Takes first entry ∧ Relation.ReflTransGen component.Supplies first last ∧
    component.Gives last exit ∧ Relation.ReflTransGen component.Carries exit target

theorem parts_eq_nil_of_isBuiltIn {component : Component} (h : component.isBuiltIn = true) :
    component.parts = [] := by
  cases component with
  | builtIn => rfl
  | composite => cases h

theorem not_carries_of_isBuiltIn {component : Component} (h : component.isBuiltIn = true)
    {source target : PinBit} : ¬ component.Carries source target := by
  have hparts := parts_eq_nil_of_isBuiltIn h
  intro hcarries
  cases hcarries with
  | read hpart | drive hpart | inside hpart =>
    rw [hparts] at hpart
    cases hpart

/-- A built in component holds nothing but itself. -/
theorem Holds.eq_of_isBuiltIn {component inner : Component} {path : List Nat}
    (h : component.Holds path inner) (hbuiltIn : component.isBuiltIn = true) :
    path = [] ∧ inner = component := by
  cases h with
  | self => exact ⟨rfl, rfl⟩
  | part hpart =>
    rw [parts_eq_nil_of_isBuiltIn hbuiltIn] at hpart
    cases hpart

/-- Built in components pass everything on that is not clocked. -/
theorem passes_of_isBuiltIn {component : Component} (h : component.isBuiltIn = true)
    {input bit output bit' : Nat} (hentry : component.HasEntry input bit)
    (hexit : component.HasExit output bit') :
    component.Passes ⟨[], .input, input, bit⟩ ⟨[], .output, output, bit'⟩ :=
  ⟨[], [], _, _, .refl, .intro (.self component) h hentry, .refl,
    .intro (.self component) h hexit, .refl⟩

namespace Passes

variable {component : Component} {source middle target : PinBit}

theorem carried (h : component.Passes source middle)
    (hcarries : Relation.ReflTransGen component.Carries middle target) :
    component.Passes source target := by
  obtain ⟨first, last, entry, exit, hin, htakes, hbetween, hgives, hout⟩ := h
  exact ⟨first, last, entry, exit, hin, htakes, hbetween, hgives, hout.trans hcarries⟩

/-- The last gate on the way to a bit supplies the first one on the way from it. -/
theorem trans (h : component.Passes source middle) (h' : component.Passes middle target) :
    component.Passes source target := by
  obtain ⟨first, last, entry, exit, hin, htakes, hbetween, hgives, hout⟩ := h
  obtain ⟨first', last', entry', exit', hin', htakes', hbetween', hgives', hout'⟩ := h'
  have hsupplies : component.Supplies last first' :=
    ⟨exit, entry', hgives, htakes', hout.trans hin'⟩
  exact ⟨first, last', entry, exit', hin, htakes, (hbetween.tail hsupplies).trans hbetween',
    hgives', hout'⟩

theorem hasLoop (h : component.Passes source source) : component.HasLoop := by
  obtain ⟨first, last, entry, exit, hin, htakes, hbetween, hgives, hout⟩ := h
  exact ⟨first, .tail' hbetween ⟨exit, entry, hgives, htakes, hout.trans hin⟩⟩

end Passes

section Inside

variable {owner : Component} {part : Part Component} (hpart : part ∈ owner.parts)
include hpart

theorem Takes.inside {path : List Nat} {point : PinBit} (h : part.component.Takes path point) :
    owner.Takes (part.position :: path) (point.under part.position) := by
  cases h with
  | intro hgate hbuiltIn hentry => exact .intro (.part hpart hgate) hbuiltIn hentry

theorem Gives.inside {path : List Nat} {point : PinBit} (h : part.component.Gives path point) :
    owner.Gives (part.position :: path) (point.under part.position) := by
  cases h with
  | intro hgate hbuiltIn hexit => exact .intro (.part hpart hgate) hbuiltIn hexit

theorem carries_inside {source target : PinBit}
    (h : Relation.ReflTransGen part.component.Carries source target) :
    Relation.ReflTransGen owner.Carries (source.under part.position)
      (target.under part.position) :=
  h.lift _ fun _ _ => .inside hpart

theorem Supplies.inside {gate other : List Nat} (h : part.component.Supplies gate other) :
    owner.Supplies (part.position :: gate) (part.position :: other) := by
  obtain ⟨exit, entry, hgives, htakes, hcarries⟩ := h
  exact ⟨_, _, hgives.inside hpart, htakes.inside hpart, carries_inside hpart hcarries⟩

/-- What a part passes on, its owner passes on at the place of the part. -/
theorem Passes.inside {source target : PinBit} (h : part.component.Passes source target) :
    owner.Passes (source.under part.position) (target.under part.position) := by
  obtain ⟨first, last, entry, exit, hin, htakes, hbetween, hgives, hout⟩ := h
  exact ⟨_, _, _, _, carries_inside hpart hin, htakes.inside hpart,
    hbetween.lift _ fun _ _ hsupplies => hsupplies.inside hpart, hgives.inside hpart,
    carries_inside hpart hout⟩

end Inside

end Component

namespace Part

inductive Reads (part : Part Component) : PinBit → Prop where
  | intro {wire : Wire} {index bit : Nat} (hwire : wire ∈ part.wires)
    (hinput : wire.partRole = .input) (howner : wire.owner = .pin .internal index)
    (hentry : part.component.HasEntry wire.partIndex bit) :
    Reads part ⟨[], .input, wire.partIndex, bit⟩

inductive Drives (part : Part Component) : PinBit → Prop where
  | intro {wire : Wire} {index bit : Nat} (hwire : wire ∈ part.wires)
    (houtput : wire.partRole = .output) (howner : wire.owner = .pin .internal index)
    (hexit : part.component.HasExit wire.partIndex bit) :
    Drives part ⟨[], .output, wire.partIndex, bit⟩

/-- Whether each bit of an input that reads a pin between parts gets to each bit of an output that
drives one. Inputs that are clocked do not count. -/
def IsOpen (part : Part Component) : Prop :=
  ∀ entry exit, part.Reads entry → part.Drives exit → part.component.Passes entry exit

theorem isOpen_of_isBuiltIn {part : Part Component} (h : part.component.isBuiltIn = true) :
    part.IsOpen := by
  rintro _ _ ⟨-, -, -, hentry⟩ ⟨-, -, -, hexit⟩
  exact Component.passes_of_isBuiltIn h hentry hexit

end Part

namespace Component

/-- Whether a part drives a pin between parts that another one reads through an input that is not
clocked. -/
inductive FeedsPart (component : Component) (part other : Part Component) : Prop where
  | intro {wire wire' : Wire} {index : Nat} (hpart : part ∈ component.parts)
    (hother : other ∈ component.parts) (hwire : wire ∈ part.wires) (hwire' : wire' ∈ other.wires)
    (houtput : wire.partRole = .output) (hinput : wire'.partRole = .input)
    (howner : wire.owner = .pin .internal index) (howner' : wire'.owner = .pin .internal index)
    (hclocked : other.component.isInputClocked wire'.partIndex = false)

theorem FeedsPart.mem_parts {component : Component} {part other : Part Component}
    (h : component.FeedsPart part other) : part ∈ component.parts := by
  cases h with
  | intro hpart => exact hpart

/-- What the wires of the outermost level promise, whether or not its parts form a loop. -/
structure Wired (component : Component) : Prop where
  pins : ∀ role, PinsInOrder role (component.pinsOf role)
  partPins : ∀ part ∈ component.parts, ∀ role, PinsInOrder role (part.component.pinsOf role)
  fits : ∀ part ∈ component.parts, ∀ wire ∈ part.wires,
    wire.Fits part.component component.pinsOf
  /-- Pins between parts are driven as a whole. -/
  whole : ∀ part ∈ component.parts, ∀ wire ∈ part.wires, wire.partRole = .output →
    ∀ index, wire.owner = .pin .internal index → wire.ownerBits = none

namespace Wired

variable {component : Component} {part : Part Component} {wire : Wire} {index : Nat}

/-- The two pins of a wire that drives a pin between parts, the whole of it. -/
theorem exists_driver (h : component.Wired) (hpart : part ∈ component.parts)
    (hwire : wire ∈ part.wires) (houtput : wire.partRole = .output)
    (howner : wire.owner = .pin .internal index) : ∃ pin far,
      part.component.outputs[wire.partIndex]? = some pin ∧ pin.Has wire.partBits ∧
      (component.pinsOf .internal)[index]? = some far ∧
      (pin.spanOf wire.partBits).width = far.width ∧ (far.spanOf wire.ownerBits).low = 0 := by
  have hwhole := h.whole part hpart wire hwire houtput index howner
  cases h.fits part hpart wire hwire with
  | tied => cases houtput
  | read => cases houtput
  | drive hpin hbits _ hfar _ hwidth =>
    cases howner
    obtain rfl := hwhole
    obtain ⟨-, -, hlow, hhigh⟩ := h.partPins part hpart .output _ _ hpin
    exact ⟨_, _, hpin, hbits, hfar, (Pin.width_spanOf hlow hhigh _).trans hwidth, rfl⟩

theorem exists_reader (h : component.Wired) (hpart : part ∈ component.parts)
    (hwire : wire ∈ part.wires) (hinput : wire.partRole = .input)
    (howner : wire.owner = .pin .internal index) : ∃ pin far,
      part.component.inputs[wire.partIndex]? = some pin ∧ pin.Has wire.partBits ∧
      (component.pinsOf .internal)[index]? = some far ∧ far.Has wire.ownerBits := by
  cases h.fits part hpart wire hwire with
  | tied _ _ hconstant => rcases hconstant with rfl | rfl <;> cases howner
  | read hpin hbits _ hfar hfarBits _ =>
    cases howner
    exact ⟨_, _, hpin, hbits, hfar, hfarBits⟩
  | drive => cases hinput

end Wired

/-- What a part reads from the pin that another part drives gets there from wherever the driver
reads, if the driver is open. The driver drives the whole pin and so the bit that is read. -/
theorem FeedsPart.exists_entry {component : Component} (h : component.Wired)
    {part other : Part Component} (hfeeds : component.FeedsPart part other) :
    ∃ entry, other.Reads entry ∧ (part.IsOpen → ∀ start, part.Reads start →
      component.Passes (start.under part.position) (entry.under other.position)) := by
  cases hfeeds with
  | @intro wire wire' index hpart hother hwire hwire' houtput hinput howner howner' hclocked =>
    obtain ⟨pin, far, hpin, hbits, hfar, hwidth, hwhole⟩ :=
      h.exists_driver hpart hwire houtput howner
    obtain ⟨pin', far', hpin', hbits', hfar', hfarBits⟩ :=
      h.exists_reader hother hwire' hinput howner'
    obtain rfl : far = far' := Option.some.inj (hfar.symm.trans hfar')
    obtain ⟨-, -, hlow, -⟩ := h.partPins part hpart .output _ _ hpin
    obtain ⟨-, -, hlow', -⟩ := h.partPins other hother .input _ _ hpin'
    obtain ⟨-, -, hfarLow, -⟩ := h.pins .internal _ _ hfar
    -- the lowest bit that is read comes from this bit of what is driven
    have hoffset : (far.spanOf wire'.ownerBits).low < (pin.spanOf wire.partBits).width :=
      hwidth ▸ hfarBits.lt_of_covers hfarLow ⟨Nat.le_refl _, BitSpan.low_le_high _⟩
    have hexit := Part.Drives.intro hwire houtput howner ⟨pin, hpin, hbits.lt_of_covers hlow
      (BitSpan.covers_iff_exists.mpr ⟨_, hoffset, rfl⟩)⟩
    have hentry := Part.Reads.intro hwire' hinput howner' ⟨hclocked, pin', hpin',
      hbits'.lt_of_covers hlow' ⟨Nat.le_refl _, BitSpan.low_le_high _⟩⟩
    refine ⟨_, hentry, fun hopen start hstart => ?_⟩
    have hdriven := Carries.drive hpart hwire houtput howner hpin hfar hoffset
    rw [hwhole, Nat.zero_add] at hdriven
    have hread := @Carries.read _ _ _ _ _ _ _ 0 hother hwire' hinput howner' hpin' hfar
      (BitSpan.width_pos _)
    exact ((hopen _ _ hstart hexit).inside hpart).carried (.tail (.single hdriven) hread)

/-- Open parts that feed each other in a circle make a loop of built in gates. The walk starts at
what a part of the circle reads from the one before it, and comes back to that bit. -/
theorem hasLoop_of_feedsPart {component : Component} (h : component.Wired) {part : Part Component}
    (hloop : Relation.TransGen (fun a b => component.FeedsPart a b ∧ a.IsOpen) part part) :
    component.HasLoop := by
  obtain ⟨last, hpath, hfeeds, hopen⟩ := Relation.TransGen.tail'_iff.mp hloop
  obtain ⟨start, hstart, hclose⟩ := hfeeds.exists_entry h
  -- a part of the circle reads the start, or a bit that the start gets to
  have hwalk : ∃ entry, last.Reads entry ∧
      (entry.under last.position = start.under part.position ∨
        component.Passes (start.under part.position) (entry.under last.position)) := by
    clear hclose hopen hfeeds
    induction hpath with
    | refl => exact ⟨start, hstart, .inl rfl⟩
    | tail _ hedge ih =>
      obtain ⟨entry, hentry, hreached⟩ := ih
      obtain ⟨next, hnext, hpasses⟩ := hedge.1.exists_entry h
      have hstep := hpasses hedge.2 entry hentry
      refine ⟨next, hnext, .inr ?_⟩
      rcases hreached with hsame | hreached
      · rwa [hsame] at hstep
      · exact hreached.trans hstep
  obtain ⟨entry, hentry, hreached⟩ := hwalk
  have hback := hclose hopen entry hentry
  rcases hreached with hsame | hreached
  · rw [hsame] at hback
    exact hback.hasLoop
  · exact (hreached.trans hback).hasLoop

end Component

end ClockedLogic
