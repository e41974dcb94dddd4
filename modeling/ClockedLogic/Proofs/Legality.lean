import ClockedLogic.Proofs.BlueprintWiring

/-!
Which blueprints are legal. The rules speak of the references and pins alone: where a wire may come
from and where it may go, that no two wires drive one bit, and that no part feeds itself through
inputs that are not clocked. A blueprint is built if and only if it is legal.
-/

namespace ClockedLogic

structure Component.IsOrderly (component : Component) : Prop where
  inputs : PinsInOrder .input component.inputs
  outputs : PinsInOrder .output component.outputs
  names : ((component.inputs ++ component.outputs).map Pin.name).Nodup

def BitNumber.Among (bits : Option (BitNumber × BitNumber)) (bit : Nat) : Prop :=
  ∀ ends ∈ bits, ends.1.val ≤ bit ∧ bit ≤ ends.2.val

inductive OpenWire.Clash (a b : OpenWire) : Prop where
  /-- A bit of an input of a part. -/
  | input {bit : Nat} (hinput : a.pin.role = .input) (hpart : a.part = b.part)
    (hpin : a.pin = b.pin) (hbit : (a.pin.spanOf a.bits).Covers bit)
    (hbit' : (b.pin.spanOf b.bits).Covers bit)
  /-- A bit of what two outputs of parts drive. -/
  | owner {name : String} {bits bits' : Option (BitNumber × BitNumber)} {bit : Nat}
    (houtput : a.pin.role = .output) (houtput' : b.pin.role = .output)
    (howner : a.owner = .pin name bits) (howner' : b.owner = .pin name bits')
    (hbit : BitNumber.Among bits bit) (hbit' : BitNumber.Among bits' bit)

namespace Blueprint

variable (blueprint : Blueprint) (wires : List OpenWire)

/-- What parts can be wired to: the declared pins, and every other name that a part drives as a
whole. -/
inductive Offers : PinRole → String → Nat → Prop where
  | input {name : String} {width : Nat} (h : (name, width) ∈ blueprint.inputs) :
    Offers .input name width
  | output {name : String} {width : Nat} (h : (name, width) ∈ blueprint.outputs) :
    Offers .output name width
  | internal {wire : OpenWire} {name : String} (hwire : wire ∈ wires)
    (hdriver : wire.pin.role = .output) (howner : wire.owner = .pin name none)
    (hnew : name ∉ blueprint.declaredNames) : Offers .internal name wire.width

/-- Whether the bits of a reference are bits of a bus, and as many as a wire takes of its part. -/
def Matches (wire : OpenWire) (width : Nat) (bits : Option (BitNumber × BitNumber)) : Prop :=
  ∃ span, Meant width bits span ∧ span.elim width BitSpan.width = wire.width

inductive LegalSource (wire : OpenWire) : Prop where
  | ones (howner : wire.owner = .ones)
  | zeros (howner : wire.owner = .zeros)
  | pin {name : String} {bits : Option (BitNumber × BitNumber)} {role : PinRole} {width : Nat}
    (howner : wire.owner = .pin name bits) (hoffers : blueprint.Offers wires role name width)
    (hrole : role ≠ .output) (hmatches : Matches wire width bits)

inductive LegalTarget (wire : OpenWire) : Prop where
  | output {name : String} {bits : Option (BitNumber × BitNumber)} {width : Nat}
    (howner : wire.owner = .pin name bits) (houtput : (name, width) ∈ blueprint.outputs)
    (hmatches : Matches wire width bits)
  | internal {name : String} (howner : wire.owner = .pin name none)
    (hnew : name ∉ blueprint.declaredNames)

/-- Whether a part drives a pin that another part reads through an input that is not clocked. -/
inductive Feeds : Nat → Nat → Prop where
  | intro {driver reader : OpenWire} {name : String}
    {bits bits' : Option (BitNumber × BitNumber)} (hdriver : driver ∈ wires)
    (hreader : reader ∈ wires) (houtput : driver.pin.role = .output)
    (hinput : reader.pin.role = .input)
    (hclocked : reader.component.isInputClocked reader.pin.index = false)
    (howner : driver.owner = .pin name bits) (howner' : reader.owner = .pin name bits') :
    Feeds driver.part reader.part

structure LegalWires : Prop where
  sources : ∀ wire ∈ wires, wire.pin.role = .input → blueprint.LegalSource wires wire
  targets : ∀ wire ∈ wires, wire.pin.role = .output → blueprint.LegalTarget wire
  apart : wires.Pairwise fun a b => ¬ a.Clash b
  acyclic : ∀ part, ¬ Relation.TransGen (Feeds wires) part part

/-- Whether a blueprint is one that can be built. -/
structure Legal : Prop where
  declarations : blueprint.LegalDeclarations
  chip : blueprint.chip.isSome → blueprint.parts = []
  wiring : blueprint.chip = none → ∃ wires : List OpenWire,
    List.Forall₂ (fun text wire => wire.Reads text) blueprint.wireTexts wires ∧
    blueprint.LegalWires wires

end Blueprint

/-- The bits that a reference means are those of the pin among them. -/
theorem Meant.covers_iff {pin : Pin} {bits : Option (BitNumber × BitNumber)}
    {span : Option BitSpan} (h : Meant pin.width bits span) (hlow : 1 ≤ pin.width)
    (hhigh : pin.width ≤ 16) {bit : Nat} :
    (pin.spanOf span).Covers bit ↔ bit < pin.width ∧ BitNumber.Among bits bit := by
  cases h with
  | whole =>
    simp only [Pin.spanOf, Option.getD_none, BitSpan.whole, BitSpan.Covers, BitNumber.Among,
      Option.mem_def, reduceCtorEq, false_implies, implies_true, and_true]
    omega
  | span hlow hhigh hwidth =>
    simp only [Pin.spanOf, Option.getD_some, BitSpan.Covers, BitNumber.Among, Option.mem_def,
      Option.some.injEq, forall_eq', hlow, hhigh]
    omega

/-- A bit that a reference means is below the width, or all bits are meant. -/
theorem Meant.among_min {width : Nat} {bits : Option (BitNumber × BitNumber)}
    {span : Option BitSpan} (h : Meant width bits span) {bit : Nat}
    (hbit : BitNumber.Among bits bit) : BitNumber.Among bits (min bit (width - 1)) := by
  cases h with
  | whole => intro ends hends; cases hends
  | span hlow hhigh hwidth =>
    intro ends hends
    have hbetween := hbit ends hends
    cases hends
    simp only at hbetween ⊢
    omega

/-- Two references to a pin mean a common bit just where their spans overlap. -/
theorem Meant.overlaps_iff {pin : Pin} {bits bits' : Option (BitNumber × BitNumber)}
    {span span' : Option BitSpan} (h : Meant pin.width bits span)
    (h' : Meant pin.width bits' span') (hlow : 1 ≤ pin.width) (hhigh : pin.width ≤ 16) :
    (pin.spanOf span).overlaps (pin.spanOf span') = true ↔
      ∃ bit, BitNumber.Among bits bit ∧ BitNumber.Among bits' bit := by
  rw [BitSpan.overlaps_iff]
  simp only [h.covers_iff hlow hhigh, h'.covers_iff hlow hhigh]
  constructor
  · rintro ⟨bit, ⟨-, hbit⟩, -, hbit'⟩
    exact ⟨bit, hbit, hbit'⟩
  · rintro ⟨bit, hbit, hbit'⟩
    have hlt : min bit (pin.width - 1) < pin.width := by omega
    exact ⟨_, ⟨hlt, h.among_min hbit⟩, hlt, h'.among_min hbit'⟩

theorem Pin.widthOf_eq_elim (pin : Pin) (bits : Option BitSpan) :
    pin.widthOf bits = bits.elim pin.width BitSpan.width := by
  cases bits <;> rfl

theorem OpenWire.Clash.symm {a b : OpenWire} (h : a.Clash b) : b.Clash a := by
  cases h with
  | input hinput hpart hpin hbit hbit' =>
    exact .input (hpin ▸ hinput) hpart.symm hpin.symm hbit' hbit
  | owner houtput houtput' howner howner' hbit hbit' =>
    exact .owner houtput' houtput howner' howner hbit' hbit

theorem Pin.mem_ofDeclarations {role : PinRole} {declarations : List (String × Nat)} {name : String}
    {width : Nat} : (name, width) ∈ declarations ↔
      ∃ pin ∈ Pin.ofDeclarations role declarations, pin.name = name ∧ pin.width = width := by
  simp only [ofDeclarations, List.mem_map, exists_exists_and_eq_and]
  constructor
  · intro hmem
    obtain ⟨position, hposition⟩ := List.mem_iff_getElem?.mp hmem
    exact ⟨((name, width), position), List.mem_zipIdx_iff_getElem?.mpr hposition, rfl, rfl⟩
  · rintro ⟨⟨⟨_, _⟩, position⟩, hmem, rfl, rfl⟩
    exact List.mem_of_getElem? (List.mem_zipIdx_iff_getElem?.mp hmem)

/-- What a joint drives: bits of the part pin, or bits of a pin that the far end names. -/
theorem OpenWire.Joined.sink_cases {pins : List Pin} {wire : OpenWire} {joint : Joint}
    (h : wire.Joined pins joint) :
    (wire.pin.role = .input ∧ joint.sink = .partInput wire.part wire.pin.index ∧
      joint.span = wire.pin.spanOf wire.bits) ∨
    (wire.pin.role ≠ .input ∧ ∃ pin ∈ pins, ∃ bits span, wire.owner = .pin pin.name bits ∧
      Meant pin.width bits span ∧ joint.sink = .owner pin.role pin.index ∧
      joint.span = pin.spanOf span) := by
  cases h with
  | ones hinput => exact .inl ⟨hinput, rfl, rfl⟩
  | zeros hinput => exact .inl ⟨hinput, rfl, rfl⟩
  | read hinput => exact .inl ⟨hinput, rfl, rfl⟩
  | drive houtput howner hpin _ _ hmeant _ =>
    exact .inr ⟨houtput, _, hpin, _, _, howner, hmeant, rfl, rfl⟩

namespace Blueprint

/-- A blueprint whose declarations are legal, whose wires have been read and whose internal pins
have been found. -/
structure Scanned (blueprint : Blueprint) (wires : List OpenWire) (internals : List Pin) : Prop
    where
  declarations : blueprint.LegalDeclarations
  orderly : ∀ part ∈ blueprint.parts, part.1.IsOrderly
  opened : ∀ wire ∈ wires, blueprint.Opened wire
  found : Found blueprint.declaredPins [] wires internals
  ordered : ∀ role, PinsInOrder role (blueprint.pinsOf internals role)

namespace Scanned

variable {blueprint : Blueprint} {wires : List OpenWire} {internals : List Pin}

theorem isOrderly (h : blueprint.Scanned wires internals) {wire : OpenWire} (hwire : wire ∈ wires) :
    wire.component.IsOrderly := by
  obtain ⟨_, hpart⟩ := (h.opened wire hwire).part
  exact h.orderly _ (List.mem_of_getElem? hpart)

theorem partPin (h : blueprint.Scanned wires internals) {wire : OpenWire} (hwire : wire ∈ wires) :
    wire.pin.role = .input ∧ wire.component.inputs[wire.pin.index]? = some wire.pin ∨
      wire.pin.role = .output ∧ wire.component.outputs[wire.pin.index]? = some wire.pin :=
  (h.opened wire hwire).partPin (h.isOrderly hwire).inputs (h.isOrderly hwire).outputs

theorem role_eq_output (h : blueprint.Scanned wires internals) {wire : OpenWire}
    (hwire : wire ∈ wires) (hrole : wire.pin.role ≠ .input) : wire.pin.role = .output :=
  ((h.partPin hwire).resolve_left fun hinput => hrole hinput.1).1

theorem eq_of_name (h : blueprint.Scanned wires internals) {pin other : Pin}
    (hpin : pin ∈ blueprint.declaredPins ++ internals)
    (hother : other ∈ blueprint.declaredPins ++ internals) (hname : pin.name = other.name) :
    pin = other := List.inj_on_of_nodup_map h.found.nodup hpin hother hname

theorem eq_of_place (h : blueprint.Scanned wires internals) {pin other : Pin}
    (hpin : pin ∈ blueprint.declaredPins ++ internals)
    (hother : other ∈ blueprint.declaredPins ++ internals) (hrole : pin.role = other.role)
    (hindex : pin.index = other.index) : pin = other := by
  have hget := blueprint.getElem?_pinsOf h.ordered hpin
  rw [hrole, hindex, blueprint.getElem?_pinsOf h.ordered hother] at hget
  exact (Option.some.inj hget).symm

theorem width_mem (h : blueprint.Scanned wires internals) {pin : Pin}
    (hpin : pin ∈ blueprint.declaredPins ++ internals) : 1 ≤ pin.width ∧ pin.width ≤ 16 :=
  (h.ordered _ _ _ (blueprint.getElem?_pinsOf h.ordered hpin)).2.2

theorem offers (h : blueprint.Scanned wires internals) {pin : Pin}
    (hpin : pin ∈ blueprint.declaredPins ++ internals) :
    blueprint.Offers wires pin.role pin.name pin.width := by
  have hget := blueprint.getElem?_pinsOf h.ordered hpin
  cases hrole : pin.role with
  | input =>
    rw [hrole] at hget
    exact .input (Pin.mem_ofDeclarations.mpr ⟨pin, List.mem_of_getElem? hget, rfl, rfl⟩)
  | output =>
    rw [hrole] at hget
    exact .output (Pin.mem_ofDeclarations.mpr ⟨pin, List.mem_of_getElem? hget, rfl, rfl⟩)
  | internal =>
    rw [hrole] at hget
    have hinternal : pin ∈ internals := List.mem_of_getElem? hget
    have hnodup := h.found.nodup
    rw [List.map_append, List.nodup_append] at hnodup
    obtain ⟨-, wire, hwire, hdriver, howner, hwidth⟩ :=
      (h.found.driven pin hinternal).resolve_left (by simp)
    rw [hwidth]
    refine .internal hwire hdriver howner fun hdeclared => ?_
    rw [← map_name_declaredPins] at hdeclared
    exact hnodup.2.2 _ hdeclared _ (List.mem_map_of_mem hinternal) rfl

/-- A name that a part drives is that of a pin, with its width if nothing else drives it. -/
theorem exists_internal (h : blueprint.Scanned wires internals)
    (hapart : wires.Pairwise fun a b => ¬ a.Clash b) {wire : OpenWire} (hwire : wire ∈ wires)
    (hdriver : wire.pin.role = .output) {name : String} (howner : wire.owner = .pin name none)
    (hnew : name ∉ blueprint.declaredNames) :
    ∃ pin ∈ blueprint.declaredPins ++ internals, pin.role = .internal ∧ pin.name = name ∧
      pin.width = wire.width := by
  obtain ⟨pin, hpin, rfl⟩ := List.mem_map.mp (h.found.known wire hwire hdriver name none howner)
  have hinternal : pin ∈ internals := by
    refine (List.mem_append.mp hpin).resolve_left fun hdeclared => hnew ?_
    rw [← map_name_declaredPins]
    exact List.mem_map_of_mem hdeclared
  obtain ⟨hrole, first, hfirst, hdriver', howner', hwidth⟩ :=
    (h.found.driven pin hinternal).resolve_left (by simp)
  refine ⟨pin, hpin, hrole, rfl, ?_⟩
  by_contra hdiffer
  have hne : wire ≠ first := fun heq => hdiffer (heq ▸ hwidth)
  have : Std.Symm fun a b : OpenWire => ¬ a.Clash b := ⟨fun _ _ hab hba => hab hba.symm⟩
  have hwhole : BitNumber.Among none 0 := fun _ hnone => by cases hnone
  exact hapart.forall hwire hfirst hne (.owner hdriver hdriver' howner howner' hwhole hwhole)

theorem exists_pin (h : blueprint.Scanned wires internals)
    (hapart : wires.Pairwise fun a b => ¬ a.Clash b) {role : PinRole} {name : String} {width : Nat}
    (hoffers : blueprint.Offers wires role name width) :
    ∃ pin ∈ blueprint.declaredPins ++ internals, pin.role = role ∧ pin.name = name ∧
      pin.width = width := by
  have hdeclared : ∀ role, ∀ pin ∈ blueprint.pinsOf internals role, pin.role = role := by
    intro role pin hpin
    obtain ⟨index, hindex⟩ := List.mem_iff_getElem?.mp hpin
    exact (h.ordered role _ _ hindex).1
  cases hoffers with
  | input hmem =>
    obtain ⟨pin, hpin, hname, hwidth⟩ := (@Pin.mem_ofDeclarations .input _ _ _).mp hmem
    exact ⟨pin, List.mem_append_left _ (List.mem_append_left _ hpin), hdeclared .input pin hpin,
      hname, hwidth⟩
  | output hmem =>
    obtain ⟨pin, hpin, hname, hwidth⟩ := (@Pin.mem_ofDeclarations .output _ _ _).mp hmem
    exact ⟨pin, List.mem_append_left _ (List.mem_append_right _ hpin), hdeclared .output pin hpin,
      hname, hwidth⟩
  | internal hwire hdriver howner hnew => exact h.exists_internal hapart hwire hdriver howner hnew

theorem legalSource (h : blueprint.Scanned wires internals) {wire : OpenWire} {joint : Joint}
    (hinput : wire.pin.role = .input)
    (hjoined : wire.Joined (blueprint.declaredPins ++ internals) joint) :
    blueprint.LegalSource wires wire := by
  cases hjoined with
  | ones _ howner => exact .ones howner
  | zeros _ howner => exact .zeros howner
  | read _ howner hpin hrole hmeant hwidth =>
    refine .pin howner (h.offers hpin) hrole ⟨_, hmeant, ?_⟩
    rwa [← Pin.widthOf_eq_elim]
  | drive houtput => exact absurd hinput houtput

theorem legalTarget (h : blueprint.Scanned wires internals) {wire : OpenWire} {joint : Joint}
    (houtput : wire.pin.role = .output)
    (hjoined : wire.Joined (blueprint.declaredPins ++ internals) joint) :
    blueprint.LegalTarget wire := by
  obtain ⟨pin, hpin, bits, span, howner, hrole, hwhole, hmeant, hwidth, -⟩ :=
    hjoined.of_output houtput
  have hoffers := h.offers hpin
  generalize hpinRole : pin.role = role at hoffers
  generalize hpinWidth : pin.width = width at hoffers
  cases hoffers with
  | input => exact absurd hpinRole hrole
  | output hdeclared =>
    subst hpinWidth
    refine .output howner hdeclared ⟨span, hmeant, ?_⟩
    rwa [← Pin.widthOf_eq_elim]
  | internal _ _ _ hnew =>
    rw [hwhole hpinRole] at howner
    exact .internal howner hnew

theorem exists_joined (h : blueprint.Scanned wires internals) (hlegal : blueprint.LegalWires wires)
    {wire : OpenWire} (hwire : wire ∈ wires) :
    ∃ joint, wire.Joined (blueprint.declaredPins ++ internals) joint := by
  rcases h.partPin hwire with ⟨hinput, -⟩ | ⟨houtput, -⟩
  · cases hlegal.sources wire hwire hinput with
    | ones howner => exact ⟨_, .ones hinput howner⟩
    | zeros howner => exact ⟨_, .zeros hinput howner⟩
    | pin howner hoffers hrole hmatches =>
      obtain ⟨pin, hpin, rfl, rfl, rfl⟩ := h.exists_pin hlegal.apart hoffers
      obtain ⟨span, hmeant, hwidth⟩ := hmatches
      rw [← Pin.widthOf_eq_elim] at hwidth
      exact ⟨_, .read hinput howner hpin hrole hmeant hwidth⟩
  · have hnotInput : wire.pin.role ≠ .input := by simp [houtput]
    cases hlegal.targets wire hwire houtput with
    | output howner hdeclared hmatches =>
      obtain ⟨pin, hpin, hrole, rfl, rfl⟩ :=
        h.exists_pin hlegal.apart (.output hdeclared)
      obtain ⟨span, hmeant, hwidth⟩ := hmatches
      rw [← Pin.widthOf_eq_elim] at hwidth
      exact ⟨_, .drive hnotInput howner hpin (by simp [hrole]) (by simp [hrole]) hmeant hwidth⟩
    | internal howner hnew =>
      obtain ⟨pin, hpin, hrole, rfl, hwidth⟩ :=
        h.exists_internal hlegal.apart hwire houtput howner hnew
      exact ⟨_, .drive hnotInput howner hpin (by simp [hrole]) (fun _ => rfl) .whole hwidth⟩

theorem component_eq (h : blueprint.Scanned wires internals) {a b : OpenWire} (ha : a ∈ wires)
    (hb : b ∈ wires) (hpart : a.part = b.part) : a.component = b.component := by
  obtain ⟨_, hget⟩ := (h.opened a ha).part
  obtain ⟨_, hget'⟩ := (h.opened b hb).part
  rw [hpart, hget'] at hget
  exact (Prod.mk.inj (Option.some.inj hget)).1.symm

theorem clashes_iff (h : blueprint.Scanned wires internals) {a b : OpenWire} {first second : Joint}
    (ha : a ∈ wires) (hb : b ∈ wires)
    (hfirst : a.Joined (blueprint.declaredPins ++ internals) first)
    (hsecond : b.Joined (blueprint.declaredPins ++ internals) second) :
    second.clashes first = true ↔ a.Clash b := by
  rw [Joint.clashes, Bool.and_eq_true, decide_eq_true_eq]
  rcases hfirst.sink_cases with ⟨hrole, hsink, hspan⟩ |
      ⟨hrole, pin, hpin, bits, span, howner, hmeant, hsink, hspan⟩ <;>
    rcases hsecond.sink_cases with ⟨hrole', hsink', hspan'⟩ |
      ⟨hrole', pin', hpin', bits', span', howner', hmeant', hsink', hspan'⟩ <;>
    rw [hsink, hsink', hspan, hspan']
  · rw [BitSpan.overlaps_comm, BitSpan.overlaps_iff]
    constructor
    · rintro ⟨hsame, bit, hbit, hbit'⟩
      obtain ⟨hpart, hindex⟩ := Sink.partInput.inj hsame
      refine .input hrole hpart.symm ?_ hbit hbit'
      have hget := ((h.partPin ha).resolve_right fun hout => by simp [hrole] at hout).2
      have hget' := ((h.partPin hb).resolve_right fun hout => by simp [hrole'] at hout).2
      rw [h.component_eq ha hb hpart.symm, ← hindex, hget'] at hget
      exact (Option.some.inj hget).symm
    · intro hclash
      cases hclash with
      | input _ hpart hpin hbit hbit' => exact ⟨by rw [hpart, hpin], _, hbit, hbit'⟩
      | owner houtput => rw [hrole] at houtput; cases houtput
  · refine iff_of_false (by simp) fun hclash => ?_
    cases hclash with
    | input _ _ hpin => exact hrole' (hpin ▸ hrole)
    | owner houtput => rw [hrole] at houtput; cases houtput
  · refine iff_of_false (by simp) fun hclash => ?_
    cases hclash with
    | input hinput => exact hrole hinput
    | owner _ houtput => rw [hrole'] at houtput; cases houtput
  · constructor
    · rintro ⟨hsame, hoverlaps⟩
      obtain ⟨hpinRole, hpinIndex⟩ := Sink.owner.inj hsame
      obtain rfl := h.eq_of_place hpin' hpin hpinRole hpinIndex
      obtain ⟨hlow, hhigh⟩ := h.width_mem hpin
      obtain ⟨bit, hbit', hbit⟩ := (hmeant'.overlaps_iff hmeant hlow hhigh).mp hoverlaps
      exact .owner (h.role_eq_output ha hrole) (h.role_eq_output hb hrole') howner howner' hbit
        hbit'
    · intro hclash
      cases hclash with
      | input hinput => exact absurd hinput hrole
      | owner _ _ hfar hfar' hbit hbit' =>
        rw [howner] at hfar
        rw [howner'] at hfar'
        obtain ⟨hname, rfl⟩ := BusReference.pin.inj hfar
        obtain ⟨hname', rfl⟩ := BusReference.pin.inj hfar'
        obtain rfl := h.eq_of_name hpin' hpin (hname'.trans hname.symm)
        obtain ⟨hlow, hhigh⟩ := h.width_mem hpin
        exact ⟨rfl, (hmeant'.overlaps_iff hmeant hlow hhigh).mpr ⟨_, hbit', hbit⟩⟩

theorem apart_iff (h : blueprint.Scanned wires internals) {joints : List Joint}
    (hjoints : List.Forall₂ (fun wire joint =>
      OpenWire.Joined (blueprint.declaredPins ++ internals) wire joint) wires joints) :
    joints.Pairwise (fun a b => b.clashes a = false) ↔ wires.Pairwise fun a b => ¬ a.Clash b := by
  refine pairwise_iff_of_forall₂ hjoints fun a ha b hb first second hfirst hsecond => ?_
  rw [Bool.eq_false_iff, Ne, h.clashes_iff ha hb hfirst hsecond]

end Scanned

end Blueprint

end ClockedLogic
