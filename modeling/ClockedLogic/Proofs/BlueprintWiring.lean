import ClockedLogic.Proofs.BlueprintReading
import ClockedLogic.Proofs.GraphGrowth

/-!
Building checks every promise that the wires of a component make. Each wire is joined to pins
that have its bits, no two joints clash, and the search of the dependencies that found no
circle has put them in an order. So standard components are well wired.
-/

namespace ClockedLogic

namespace Blueprint

theorem mem_wireTexts {blueprint : Blueprint} {text : Nat × Component × (String × String)}
    (h : text ∈ blueprint.wireTexts) :
    ∃ wires, blueprint.parts[text.1]? = some (text.2.1, wires) := by
  simp only [wireTexts, List.mem_flatMap, List.mem_map] at h
  obtain ⟨⟨⟨component, wires⟩, position⟩, hpart, references, -, rfl⟩ := h
  exact ⟨wires, by simpa using List.mem_zipIdx_iff_getElem?.mp hpart⟩

/-- What is known of a wire whose part side has been looked up. -/
structure Opened (blueprint : Blueprint) (wire : OpenWire) : Prop where
  part : ∃ wires, blueprint.parts[wire.part]? = some (wire.component, wires)
  pin : wire.pin ∈ wire.component.inputs ++ wire.component.outputs
  bits : wire.pin.Has wire.bits

theorem opened_of_openWires {blueprint : Blueprint} {owner : String} {wires : List OpenWire}
    (h : openWires owner blueprint.wireTexts = .ok wires) :
    ∀ wire ∈ wires, Opened blueprint wire := by
  intro wire hwire
  obtain ⟨text, htext, hopen⟩ := exists_of_forall₂ (openWires_eq_ok.mp h) hwire
  obtain ⟨hpart, hcomponent, hpin, ⟨_, -, hmeant⟩, -⟩ := reads_of_openWire hopen
  exact ⟨by rw [hpart, hcomponent]; exact mem_wireTexts htext, hpin, hmeant.has⟩

/-- The part pin of a wire stands at its place among the inputs or the outputs. -/
theorem Opened.partPin {blueprint : Blueprint} {wire : OpenWire} (h : Opened blueprint wire)
    (hinputs : PinsInOrder .input wire.component.inputs)
    (houtputs : PinsInOrder .output wire.component.outputs) :
    wire.pin.role = .input ∧ wire.component.inputs[wire.pin.index]? = some wire.pin ∨
      wire.pin.role = .output ∧ wire.component.outputs[wire.pin.index]? = some wire.pin :=
  hinputs.place_cases houtputs h.pin

/-- A wire takes as many bits of its part as a bus can have. -/
theorem Opened.width_mem {blueprint : Blueprint} {wire : OpenWire} (h : Opened blueprint wire)
    (hinputs : PinsInOrder .input wire.component.inputs)
    (houtputs : PinsInOrder .output wire.component.outputs) :
    1 ≤ wire.width ∧ wire.width ≤ 16 := by
  have hpin : 1 ≤ wire.pin.width ∧ wire.pin.width ≤ 16 := by
    rcases h.partPin hinputs houtputs with ⟨-, hget⟩ | ⟨-, hget⟩
    · exact (hinputs _ _ hget).2.2
    · exact (houtputs _ _ hget).2.2
  cases hbits : wire.bits with
  | none => rwa [OpenWire.width, hbits]
  | some span =>
    have hlt := span.high_lt
    simp only [OpenWire.width, hbits, Pin.widthOf, BitSpan.width]
    omega

/-- Internal pins are numbered in the order of their discovery. -/
theorem pinsInOrder_findInternals {owner : String} {declared found internals : List Pin}
    {wires : List OpenWire} (hfound : PinsInOrder .internal found)
    (hwires : ∀ wire ∈ wires, 1 ≤ wire.width ∧ wire.width ≤ 16)
    (h : findInternals owner declared found wires = .ok internals) :
    PinsInOrder .internal internals := by
  induction wires generalizing found with
  | nil =>
    cases h
    exact hfound
  | cons wire rest ih =>
    have hrest : ∀ other ∈ rest, 1 ≤ other.width ∧ other.width ≤ 16 := fun other ho =>
      hwires other (List.mem_cons_of_mem _ ho)
    unfold findInternals at h
    split at h
    · split at h
      · exact ih hfound hrest h
      · split at h
        · cases h
        · refine ih ?_ hrest h
          intro index pin hpin
          rw [List.getElem?_append] at hpin
          split at hpin
          · exact hfound index pin hpin
          · rename_i hge
            obtain ⟨hlt, heq⟩ := List.getElem?_eq_some_iff.mp hpin
            have hindex : index = found.length := by
              rw [List.length_singleton] at hlt
              omega
            simp only [List.getElem_singleton] at heq
            subst heq
            exact ⟨rfl, hindex.symm, hwires wire List.mem_cons_self⟩
    · exact ih hfound hrest h

def pinsOf (blueprint : Blueprint) (internals : List Pin) : PinRole → List Pin
  | .input => blueprint.inputPins
  | .output => blueprint.outputPins
  | .internal => internals

theorem getElem?_pinsOf (blueprint : Blueprint) {internals : List Pin}
    (h : ∀ role, PinsInOrder role (blueprint.pinsOf internals role)) {pin : Pin}
    (hpin : pin ∈ blueprint.declaredPins ++ internals) :
    (blueprint.pinsOf internals pin.role)[pin.index]? = some pin :=
  (mem_pins_iff_getElem? h).mp hpin

/-- Pins stand in their order where declarations are legal and parts have wires that a bus can
have. -/
theorem pinsInOrder_pinsOf {blueprint : Blueprint} {wires : List OpenWire} {internals : List Pin}
    (hdeclared : blueprint.LegalDeclarations)
    (hwidths : ∀ wire ∈ wires, 1 ≤ wire.width ∧ wire.width ≤ 16) {owner : String}
    (hinternals : findInternals owner blueprint.declaredPins [] wires = .ok internals)
    (role : PinRole) : PinsInOrder role (blueprint.pinsOf internals role) := by
  cases role with
  | input =>
    exact pinsInOrder_ofDeclarations fun declaration hmem =>
      hdeclared.widths declaration (List.mem_append_left _ hmem)
  | output =>
    exact pinsInOrder_ofDeclarations fun declaration hmem =>
      hdeclared.widths declaration (List.mem_append_right _ hmem)
  | internal => exact pinsInOrder_findInternals (fun _ _ h => by simp at h) hwidths hinternals

structure Joining (blueprint : Blueprint) (internals : List Pin) (joints : List Joint) : Prop where
  joined : ∀ joint ∈ joints, ∃ wire : OpenWire, blueprint.Opened wire ∧
    wire.Joined (blueprint.declaredPins ++ internals) joint

/-- The wires of a blueprint after all checks but the one for circles. -/
structure Joinery (blueprint : Blueprint) (internals : List Pin) (joints : List Joint) : Prop
    extends Joining blueprint internals joints where
  pinsInOrder : ∀ role, PinsInOrder role (blueprint.pinsOf internals role)
  fitted : ∀ part ∈ blueprint.parts, Fitted part.1
  apart : joints.Pairwise fun a b => b.clashes a = false

namespace Joinery

variable {blueprint : Blueprint} {internals : List Pin} {joints : List Joint}

theorem fitted_of_opened (h : blueprint.Joinery internals joints) {wire : OpenWire}
    (hwire : blueprint.Opened wire) : Fitted wire.component := by
  obtain ⟨wires, hpart⟩ := hwire.part
  exact h.fitted _ (List.mem_of_getElem? hpart)

theorem partPin (h : blueprint.Joinery internals joints) {wire : OpenWire}
    (hwire : blueprint.Opened wire) :
    wire.pin.role = .input ∧ wire.component.inputs[wire.pin.index]? = some wire.pin ∨
      wire.pin.role = .output ∧ wire.component.outputs[wire.pin.index]? = some wire.pin :=
  hwire.partPin ((h.fitted_of_opened hwire).pinsInOrder .input)
    ((h.fitted_of_opened hwire).pinsInOrder .output)

theorem fits (h : blueprint.Joinery internals joints) {wire : OpenWire} {joint : Joint}
    (hwire : blueprint.Opened wire)
    (hjoint : wire.Joined (blueprint.declaredPins ++ internals) joint) :
    joint.wire.Fits wire.component (blueprint.pinsOf internals) := by
  have hpart := h.partPin hwire
  have hinputPin : wire.pin.role = .input →
      wire.component.inputs[wire.pin.index]? = some wire.pin :=
    fun hinput => (hpart.resolve_right fun hout => by simp [hinput] at hout).2
  cases hjoint with
  | ones hinput => exact .tied (hinputPin hinput) hwire.bits (.inl rfl)
  | zeros hinput => exact .tied (hinputPin hinput) hwire.bits (.inr rfl)
  | read hinput _ hpin hrole hmeant hwidth =>
    exact .read (hinputPin hinput) hwire.bits hrole
      (blueprint.getElem?_pinsOf h.pinsInOrder hpin) hmeant.has hwidth.symm
  | drive houtput _ hpin hrole _ hmeant hwidth =>
    have hpart := (hpart.resolve_left fun hin => houtput hin.1).2
    exact .drive hpart hwire.bits hrole (blueprint.getElem?_pinsOf h.pinsInOrder hpin) hmeant.has
      hwidth.symm

/-- Two different joints drive different bits. -/
theorem clashes_eq_false (h : blueprint.Joinery internals joints) {a b : Joint} (ha : a ∈ joints)
    (hb : b ∈ joints) (hne : a ≠ b) : a.clashes b = false := by
  have : Std.Symm fun a b : Joint => b.clashes a = false := by
    refine ⟨fun x y hxy => ?_⟩
    rw [Joint.clashes, Bool.and_eq_false_iff] at hxy ⊢
    rw [BitSpan.overlaps_comm]
    exact hxy.imp (fun hs => by simpa [eq_comm] using hs) id
  exact h.apart.forall hb ha hne.symm

theorem of_part? {position : Nat} {part : Part Component}
    (h : blueprint.part? joints position = some part) :
    part.position = position ∧
      (∃ wires, blueprint.parts[position]? = some (part.component, wires)) ∧
      ∀ wire, wire ∈ part.wires ↔ ∃ joint ∈ joints, joint.part = position ∧ joint.wire = wire := by
  obtain ⟨⟨component, wires⟩, hget, rfl⟩ := Option.map_eq_some_iff.mp h
  exact ⟨rfl, ⟨wires, hget⟩, fun wire => by simp [and_assoc]⟩

theorem mem_sortedParts_iff {order : List Vertex} {part : Part Component} :
    part ∈ blueprint.sortedParts joints order ↔
      .part part.position ∈ order ∧ blueprint.part? joints part.position = some part := by
  rw [sortedParts, List.mem_filterMap]
  constructor
  · rintro ⟨vertex, hvertex, hpart⟩
    split at hpart
    · obtain rfl := (of_part? hpart).1
      exact ⟨hvertex, hpart⟩
    · cases hpart
  · rintro ⟨hvertex, hpart⟩
    exact ⟨_, hvertex, hpart⟩

/-- A part in the order of evaluation has the component and the wires of its position. -/
theorem mem_sortedParts {order : List Vertex} {part : Part Component}
    (hpart : part ∈ blueprint.sortedParts joints order) :
    (∃ wires, blueprint.parts[part.position]? = some (part.component, wires)) ∧
      ∀ wire, wire ∈ part.wires ↔ ∃ joint ∈ joints, joint.part = part.position ∧
        joint.wire = wire := (of_part? (mem_sortedParts_iff.mp hpart).2).2

end Joinery

namespace Joining

variable {blueprint : Blueprint} {internals : List Pin} {joints : List Joint}

theorem joined_of_mem_wires (h : blueprint.Joining internals joints) {order : List Vertex}
    {part : Part Component} (hpart : part ∈ blueprint.sortedParts joints order) {wire : Wire}
    (hwire : wire ∈ part.wires) :
    ∃ joint ∈ joints, joint.part = part.position ∧ joint.wire = wire ∧
      ∃ opened : OpenWire, blueprint.Opened opened ∧ opened.part = part.position ∧
        opened.component = part.component ∧
        opened.Joined (blueprint.declaredPins ++ internals) joint := by
  obtain ⟨⟨wires, hget⟩, hwires⟩ := Joinery.mem_sortedParts hpart
  obtain ⟨joint, hjoint, hposition, hjwire⟩ := (hwires wire).mp hwire
  obtain ⟨opened, hopened, hjoined⟩ := h.joined joint hjoint
  have hpartEq : opened.part = joint.part := by cases hjoined <;> rfl
  obtain ⟨wires', hget'⟩ := hopened.part
  rw [hpartEq, hposition, hget] at hget'
  have hcomponent := (Prod.mk.inj (Option.some.inj hget')).1
  exact ⟨joint, hjoint, hposition, hjwire, opened, hopened, hpartEq.trans hposition,
    hcomponent.symm, hjoined⟩

/-- Dependencies of parts are edges of the graph that ordered them. -/
theorem hasEdge_of_dependency (h : blueprint.Joining internals joints) {order : List Vertex}
    {a b : Vertex} (hdep : Dependency (blueprint.sortedParts joints order) a b) :
    (blueprint.dependencies joints).HasEdge a b ∧ ∃ p < blueprint.parts.length,
      a = .part p ∨ b = .part p := by
  have hlt : ∀ part ∈ blueprint.sortedParts joints order,
      part.position < blueprint.parts.length := by
    intro part hpart
    obtain ⟨⟨wires, hget⟩, -⟩ := Joinery.mem_sortedParts hpart
    exact (List.getElem?_eq_some_iff.mp hget).1
  cases hdep with
  | @read part wire role index hpart hwire hinput howner hclocked =>
    refine ⟨?_, part.position, hlt part hpart, .inr rfl⟩
    obtain ⟨joint, hjoint, -, rfl, opened, -, hpartEq, hcomponent, hjoined⟩ :=
      h.joined_of_mem_wires hpart hwire
    apply hasEdge_joint blueprint hjoint
    cases hjoined with
    | ones => cases howner
    | zeros => cases howner
    | read =>
      cases howner
      simp only [OpenWire.source, hcomponent, hpartEq, ← Pin.vertex_eq, Option.map_some]
        at hclocked ⊢
      simp [hclocked]
    | drive => cases hinput
  | @drive part wire role index hpart hwire houtput howner =>
    refine ⟨?_, part.position, hlt part hpart, .inl rfl⟩
    obtain ⟨joint, hjoint, -, rfl, opened, -, hpartEq, hcomponent, hjoined⟩ :=
      h.joined_of_mem_wires hpart hwire
    apply hasEdge_joint blueprint hjoint
    cases hjoined with
    | ones => cases houtput
    | zeros => cases houtput
    | read => cases houtput
    | drive =>
      cases howner
      simp only [OpenWire.target, hpartEq, ← Pin.vertex_eq]

end Joining

namespace Joinery

variable {blueprint : Blueprint} {internals : List Pin} {joints : List Joint}

theorem fits_of_mem_wires (h : blueprint.Joinery internals joints) {order : List Vertex}
    {part : Part Component} (hpart : part ∈ blueprint.sortedParts joints order) {wire : Wire}
    (hwire : wire ∈ part.wires) :
    wire.Fits part.component (blueprint.pinsOf internals) := by
  obtain ⟨joint, -, -, rfl, opened, hopened, -, hcomponent, hjoined⟩ :=
    h.joined_of_mem_wires hpart hwire
  exact hcomponent ▸ h.fits hopened hjoined

theorem nodup_positions (h : (blueprint.dependencies joints).Coherent) :
    ((blueprint.sortedParts joints
      ((blueprint.dependencies joints).traverse .root).order).map (·.position)).Nodup := by
  rw [sortedParts, List.map_filterMap]
  refine (Digraph.nodup_order_traverse h .root).filterMap fun a b position ha hb => ?_
  have hposition : ∀ found, (blueprint.part? joints found).map (·.position) = some position →
      found = position := by
    intro found hfound
    simp only [part?, Option.map_map, Option.map_eq_some_iff, Function.comp] at hfound
    obtain ⟨_, -, hfound⟩ := hfound
    exact hfound
  cases a with
  | part first =>
    cases b with
    | part second => rw [hposition first ha, hposition second hb]
    | _ => simp at hb
  | _ => simp at ha

/-- The joint of a wire into an input of a part takes the bits that the wire takes of the pin. -/
theorem takes_input (h : blueprint.Joinery internals joints) {joint : Joint}
    (hjoint : joint ∈ joints) (hinput : joint.wire.partRole = .input) {component : Component}
    {wires : List (String × String)}
    (hget : blueprint.parts[joint.part]? = some (component, wires)) {pin : Pin}
    (hpin : component.inputs[joint.wire.partIndex]? = some pin) :
    joint.sink = .partInput joint.part joint.wire.partIndex ∧
      joint.span = pin.spanOf joint.wire.partBits := by
  obtain ⟨opened, hopened, hjoined⟩ := h.joined joint hjoint
  obtain ⟨owner, bits, far, rfl, hrole⟩ : ∃ owner bits far, joint = opened.source owner bits far ∧
      opened.pin.role = .input := by
    cases hjoined with
    | ones hrole => exact ⟨_, _, _, rfl, hrole⟩
    | zeros hrole => exact ⟨_, _, _, rfl, hrole⟩
    | read hrole => exact ⟨_, _, _, rfl, hrole⟩
    | drive => cases hinput
  have hown := ((h.partPin hopened).resolve_right fun hout => by simp [hrole] at hout).2
  obtain ⟨wires', hget'⟩ := hopened.part
  simp only [OpenWire.source] at hget hpin ⊢
  rw [hget] at hget'
  rw [← (Prod.mk.inj (Option.some.inj hget')).1, hpin] at hown
  exact ⟨trivial, by rw [Option.some.inj hown]⟩

/-- The joint of a wire that drives a pin of the owner takes the bits that the wire takes of it. -/
theorem takes_output (h : blueprint.Joinery internals joints) {joint : Joint}
    (hjoint : joint ∈ joints) (houtput : joint.wire.partRole = .output) {role : PinRole}
    {index : Nat} (howner : joint.wire.owner = .pin role index) {pin : Pin}
    (hpin : (blueprint.pinsOf internals role)[index]? = some pin) :
    joint.sink = .owner role index ∧ joint.span = pin.spanOf joint.wire.ownerBits := by
  obtain ⟨opened, -, hjoined⟩ := h.joined joint hjoint
  cases hjoined with
  | ones => cases houtput
  | zeros => cases houtput
  | read => cases houtput
  | drive _ _ hmem =>
    cases howner
    have hget := blueprint.getElem?_pinsOf h.pinsInOrder hmem
    rw [hpin] at hget
    cases hget
    exact ⟨rfl, rfl⟩

theorem inputs_apart (h : blueprint.Joinery internals joints) {order : List Vertex}
    {part : Part Component} (hpart : part ∈ blueprint.sortedParts joints order) {a b : Wire}
    (ha : a ∈ part.wires) (hb : b ∈ part.wires) (hne : a ≠ b) (hainput : a.partRole = .input)
    (hbinput : b.partRole = .input) (hindex : a.partIndex = b.partIndex) {pin : Pin}
    (hpin : part.component.inputs[a.partIndex]? = some pin) :
    (pin.spanOf a.partBits).overlaps (pin.spanOf b.partBits) = false := by
  obtain ⟨⟨wires, hget⟩, hwires⟩ := mem_sortedParts hpart
  obtain ⟨ja, hja, hjaPart, rfl⟩ := (hwires a).mp ha
  obtain ⟨jb, hjb, hjbPart, rfl⟩ := (hwires b).mp hb
  obtain ⟨hasink, haspan⟩ := h.takes_input hja hainput (hjaPart ▸ hget) hpin
  obtain ⟨hbsink, hbspan⟩ := h.takes_input hjb hbinput (hjbPart ▸ hget) (hindex ▸ hpin)
  have hclash := h.clashes_eq_false hja hjb fun he => hne (he ▸ rfl)
  rw [Joint.clashes, hasink, hbsink, haspan, hbspan, hjaPart, hjbPart, hindex] at hclash
  simpa using hclash

theorem outputs_apart (h : blueprint.Joinery internals joints) {order : List Vertex}
    {part other : Part Component} (hpart : part ∈ blueprint.sortedParts joints order)
    (hother : other ∈ blueprint.sortedParts joints order) {a b : Wire} (ha : a ∈ part.wires)
    (hb : b ∈ other.wires) (hne : ¬ (part.position = other.position ∧ a = b))
    (haoutput : a.partRole = .output) (hboutput : b.partRole = .output) {role : PinRole}
    {index : Nat} (haowner : a.owner = .pin role index) (hbowner : b.owner = .pin role index)
    {pin : Pin} (hpin : (blueprint.pinsOf internals role)[index]? = some pin) :
    (pin.spanOf a.ownerBits).overlaps (pin.spanOf b.ownerBits) = false := by
  obtain ⟨ja, hja, hjaPart, rfl⟩ := ((mem_sortedParts hpart).2 a).mp ha
  obtain ⟨jb, hjb, hjbPart, rfl⟩ := ((mem_sortedParts hother).2 b).mp hb
  obtain ⟨hasink, haspan⟩ := h.takes_output hja haoutput haowner hpin
  obtain ⟨hbsink, hbspan⟩ := h.takes_output hjb hboutput hbowner hpin
  have hclash := h.clashes_eq_false hja hjb fun he =>
    hne ⟨by rw [← hjaPart, ← hjbPart, he], he ▸ rfl⟩
  rw [Joint.clashes, hasink, hbsink, haspan, hbspan] at hclash
  simpa using hclash

/-- Two joints for one wire of a part clash, so there is one only. -/
theorem wire_ne (h : blueprint.Joinery internals joints) {a b : Joint} (ha : a ∈ joints)
    (hb : b ∈ joints) (hpart : a.part = b.part) (hclash : b.clashes a = false) :
    a.wire ≠ b.wire := by
  intro hwire
  obtain ⟨opened, hopened, hjoined⟩ := h.joined a ha
  obtain ⟨_, hget⟩ := hopened.part
  have hposition : opened.part = a.part := by cases hjoined <;> rfl
  rw [hposition] at hget
  have hfits := h.fits hopened hjoined
  generalize hmade : a.wire = wire at hfits
  have hsame : b.sink = a.sink ∧ b.span = a.span := by
    cases hfits with
    | tied hpin | read hpin =>
      have hinput : a.wire.partRole = .input := by rw [hmade]
      obtain ⟨hasink, haspan⟩ := h.takes_input ha hinput hget (by rw [hmade]; exact hpin)
      obtain ⟨hbsink, hbspan⟩ := h.takes_input hb (hwire ▸ hinput) (hpart ▸ hget)
        (by rw [← hwire, hmade]; exact hpin)
      rw [hasink, haspan, hbsink, hbspan, hpart, hwire]
      simp
    | drive _ _ _ hfar =>
      have houtput : a.wire.partRole = .output := by rw [hmade]
      obtain ⟨hasink, haspan⟩ := h.takes_output ha houtput (by rw [hmade]) hfar
      obtain ⟨hbsink, hbspan⟩ := h.takes_output hb (hwire ▸ houtput) (by rw [← hwire, hmade]) hfar
      rw [hasink, haspan, hbsink, hbspan, hwire]
      simp
  rw [Joint.clashes, hsame.1, hsame.2, BitSpan.overlaps_self] at hclash
  simp at hclash

theorem nodup_wires (h : blueprint.Joinery internals joints) {order : List Vertex}
    {part : Part Component} (hpart : part ∈ blueprint.sortedParts joints order) :
    part.wires.Nodup := by
  obtain ⟨⟨component, wires⟩, hget, hmade⟩ :=
    Option.map_eq_some_iff.mp (mem_sortedParts_iff.mp hpart).2
  rw [← hmade]
  refine List.pairwise_map.mpr ((h.apart.filter _).imp_of_mem fun {a b} ha hb hclash => ?_)
  simp only [List.mem_filter, beq_iff_eq] at ha hb
  exact h.wire_ne ha.1 hb.1 (ha.2.trans hb.2.symm) hclash

/-- The wires of the parts are fitted, in whatever order the parts come. -/
theorem fitting (h : blueprint.Joinery internals joints) (isClocked : Bool)
    (isInferred : Pin → Bool) :
    Fitting (blueprint.interface isClocked isInferred) internals
      (blueprint.sortedParts joints ((blueprint.dependencies joints).traverse .root).order)
      (blueprint.pinsOf internals) where
  inputs := h.pinsInOrder .input
  outputs := h.pinsInOrder .output
  internals := h.pinsInOrder .internal
  positions := nodup_positions (blueprint.coherent_dependencies joints)
  fits _ hpart _ hwire := h.fits_of_mem_wires hpart hwire
  nodup _ hpart := h.nodup_wires hpart
  inputs_apart _ hpart _ ha _ hb hne hai hbi hindex _ hpin :=
    h.inputs_apart hpart ha hb hne hai hbi hindex hpin
  outputs_apart _ hpart _ hother _ ha _ hb hne hao hbo _ _ haowner hbowner _ hpin :=
    h.outputs_apart hpart hother ha hb hne hao hbo haowner hbowner hpin

end Joinery

/-- The graph has a path from an input to an output that depends on it. -/
theorem reaches_of_path {blueprint : Blueprint} {internals : List Pin} {joints : List Joint}
    (h : blueprint.Joinery internals joints) {order : List Vertex} {input output : Nat}
    (hinput : input < blueprint.inputPins.length)
    (hpath : Relation.ReflTransGen (Dependency (blueprint.sortedParts joints order))
      (.input input) (.output output)) :
    (blueprint.dependencies joints).reaches (.input input) (.output output) = true := by
  have hlt : input < blueprint.inputs.length := by
    simpa [inputPins, Pin.ofDeclarations] using hinput
  exact Digraph.reaches_of_path (blueprint.coherent_dependencies joints)
    (blueprint.hasEdge_root joints (.inl ⟨input, hlt, rfl⟩)).mem_target
    (hpath.lift id fun a b hdep => (h.hasEdge_of_dependency hdep).1)

/-- A pin that is cut off in the graph is not depended on along any path. -/
theorem not_path_of_isCutOff {blueprint : Blueprint} {internals : List Pin} {joints : List Joint}
    (h : blueprint.Joinery internals joints) {order : List Vertex} {input output : Nat}
    {pin far : Pin} (hpin : blueprint.inputPins[input]? = some pin)
    (hfar : blueprint.outputPins[output]? = some far)
    (hcut : blueprint.isCutOff (blueprint.dependencies joints) pin = true ∨
      blueprint.isCutOff (blueprint.dependencies joints) far = true) :
    ¬ Relation.ReflTransGen (Dependency (blueprint.sortedParts joints order))
      (.input input) (.output output) := by
  intro hpath
  obtain ⟨hrole, hindex, -⟩ := h.pinsInOrder .input input pin hpin
  obtain ⟨hrole', hindex', -⟩ := h.pinsInOrder .output output far hfar
  have hreach := reaches_of_path h (List.getElem?_eq_some_iff.mp hpin).1 hpath
  have hvertices : (blueprint.dependencies joints).reaches pin.vertex far.vertex = true := by
    rwa [Pin.vertex_eq, Pin.vertex_eq, hrole, hindex, hrole', hindex']
  simp only [isCutOff, hrole, hrole', Bool.not_eq_true'] at hcut
  rcases hcut with hcut | hcut
  · exact Bool.eq_false_iff.mp hcut
      (List.any_eq_true.mpr ⟨far, List.mem_of_getElem? hfar, hvertices⟩)
  · exact Bool.eq_false_iff.mp hcut
      (List.any_eq_true.mpr ⟨pin, List.mem_of_getElem? hpin, hvertices⟩)

/-- What is flagged as clocked where nothing is declared so has been inferred. -/
theorem exists_inferred {pins : List Pin} {isClockedPin : Pin → Bool} {index : Nat}
    (h : (pins.map isClockedPin).getD index false = true) :
    ∃ pin, pins[index]? = some pin ∧ isClockedPin pin = true := by
  rw [List.getD_eq_getElem?_getD, List.getElem?_map] at h
  cases hpin : pins[index]? with
  | none => simp [hpin] at h
  | some pin => exact ⟨pin, rfl, by simpa [hpin] using h⟩

/-- Where no circle is met the parts have an order. -/
theorem exists_rank {blueprint : Blueprint} {internals : List Pin} {joints : List Joint}
    (h : blueprint.Joinery internals joints) {order : List Vertex}
    (hcircle : ((blueprint.dependencies joints).traverse .root).circle = none) :
    ∃ rank : Vertex → Nat, ∀ a b,
      Dependency (blueprint.sortedParts joints order) a b → rank a < rank b := by
  obtain ⟨rank, hrank⟩ := Digraph.exists_rank_of_traverse
    (blueprint.coherent_dependencies joints) (blueprint.root_mem_dependencies joints) hcircle
  refine ⟨rank, fun a b hdep => ?_⟩
  obtain ⟨hedge, p, hp, hend⟩ := h.hasEdge_of_dependency hdep
  have hroot := blueprint.hasEdge_root joints (.inr ⟨p, hp, rfl⟩)
  apply hrank a b hedge
  rcases hend with rfl | rfl
  · exact .tail (.single hroot) hedge
  · exact .single hroot

theorem pinsOf_composite (blueprint : Blueprint) (internals : List Pin) (isClocked : Bool)
    (isInferred : Pin → Bool) (parts : List (Part Component)) (graph : Digraph Vertex) :
    (Component.composite (blueprint.interface isClocked isInferred) internals parts graph).pinsOf =
      blueprint.pinsOf internals := by
  funext role
  cases role <;> rfl

/-- The composite component of joined wires, with its parts in some order. -/
def laidOut (blueprint : Blueprint) (internals : List Pin) (joints : List Joint)
    (order : List Vertex) : Component :=
  let graph := blueprint.dependencies joints
  let parts := blueprint.sortedParts joints order
  let isClocked :=
    blueprint.declaredPins.any blueprint.isDeclaredClocked ||
      parts.any fun part => part.component.isClocked
  let isInferred := fun pin => isClocked && blueprint.isCutOff graph pin
  .composite (blueprint.interface isClocked isInferred) internals parts graph

section LaidOut

variable {blueprint : Blueprint} {internals : List Pin} {joints : List Joint} {order : List Vertex}

theorem parts_laidOut : (blueprint.laidOut internals joints order).parts =
    blueprint.sortedParts joints order := rfl

theorem pinsOf_laidOut :
    (blueprint.laidOut internals joints order).pinsOf = blueprint.pinsOf internals :=
  blueprint.pinsOf_composite internals _ _ _ _

theorem assemble_eq_ok {component : Component} :
    blueprint.assemble internals joints = .ok component ↔
      ((blueprint.dependencies joints).traverse .root).circle = none ∧
      component = blueprint.laidOut internals joints
        ((blueprint.dependencies joints).traverse .root).order := by
  unfold assemble
  simp only
  split
  · rename_i hsome
    simp [hsome]
  · rename_i hnone
    rw [Except.ok.injEq]
    exact ⟨fun heq => ⟨hnone, heq.symm⟩, fun h => h.2.symm⟩

end LaidOut

theorem fitted_of_assemble {blueprint : Blueprint} {internals : List Pin} {joints : List Joint}
    {component : Component} (h : blueprint.Joinery internals joints)
    (hassemble : blueprint.assemble internals joints = .ok component) : Fitted component := by
  obtain ⟨-, rfl⟩ := assemble_eq_ok.mp hassemble
  refine .composite (fun part hpart => ?_) ?_
  · obtain ⟨⟨wires, hget⟩, -⟩ := Joinery.mem_sortedParts hpart
    exact h.fitted _ (List.mem_of_getElem? hget)
  · rw [pinsOf_composite]
    exact h.fitting _ _

theorem wellWired_of_assemble {blueprint : Blueprint} {internals : List Pin} {joints : List Joint}
    {component : Component} (h : blueprint.Joinery internals joints)
    (hparts : ∀ part ∈ blueprint.parts, WellWired part.1) (hclocked : blueprint.clocked = [])
    (hassemble : blueprint.assemble internals joints = .ok component) :
    WellWired component := by
  have hdeclared : ∀ pin, blueprint.isDeclaredClocked pin = false := by
    simp [isDeclaredClocked, hclocked]
  obtain ⟨hcircle, rfl⟩ := assemble_eq_ok.mp hassemble
  refine .composite (fun part hpart => ?_) ?_
  · obtain ⟨⟨wires, hget⟩, -⟩ := Joinery.mem_sortedParts hpart
    exact hparts _ (List.mem_of_getElem? hget)
  · rw [pinsOf_composite]
    exact {
      toFitting := h.fitting _ _
      ranked := exists_rank h hcircle
      cutOff := fun index hflag output houtput => by
        obtain ⟨pin, hpin, hclocked⟩ := exists_inferred hflag
        simp only [hdeclared, Bool.false_or, Bool.and_eq_true] at hclocked
        exact not_path_of_isCutOff h hpin (List.getElem?_eq_getElem houtput) (.inl hclocked.2)
      outputs_cutOff := fun output hflag index hindex => by
        obtain ⟨pin, hpin, hclocked⟩ := exists_inferred hflag
        simp only [hdeclared, Bool.false_or, Bool.and_eq_true] at hclocked
        exact not_path_of_isCutOff h (List.getElem?_eq_getElem hindex) hpin (.inr hclocked.2)
      clocked := fun part hpart hclocked =>
        Bool.or_eq_true_iff.mpr (.inr (List.any_eq_true.mpr ⟨part, hpart, hclocked⟩)) }

/-- A blueprint without a chip is built by joining its wires and assembling its parts. -/
theorem build_eq_ok {blueprint : Blueprint} {component : Component} (hchip : blueprint.chip = none)
    (h : blueprint.build = .ok component) :
    blueprint.checkDeclarations = .ok () ∧ ∃ wires internals joints,
      openWires blueprint.name blueprint.wireTexts = .ok wires ∧
      findInternals blueprint.name blueprint.declaredPins [] wires = .ok internals ∧
      joinWires blueprint.name (blueprint.declaredPins ++ internals) [] wires = .ok joints ∧
      blueprint.assemble internals joints = .ok component := by
  unfold build at h
  obtain ⟨_, hcheck, h⟩ := except_bind_eq_ok.mp h
  rw [hchip] at h
  obtain ⟨wires, hwires, h⟩ := except_bind_eq_ok.mp h
  obtain ⟨internals, hinternals, h⟩ := except_bind_eq_ok.mp h
  obtain ⟨joints, hjoints, h⟩ := except_bind_eq_ok.mp h
  exact ⟨hcheck, wires, internals, joints, hwires, hinternals, hjoints, h⟩

theorem build_chip_eq_ok {blueprint : Blueprint} {component : Component} {chip : ChipSpec}
    (hchip : blueprint.chip = some chip) (h : blueprint.build = .ok component) :
    blueprint.checkDeclarations = .ok () ∧ blueprint.parts = [] ∧
      component = blueprint.buildBuiltIn chip := by
  unfold build at h
  obtain ⟨hcheck, h⟩ := except_check_eq_ok.mp h
  rw [hchip] at h
  simp only at h
  split at h
  · rename_i hempty
    exact ⟨hcheck, List.isEmpty_iff.mp hempty, (Except.ok.inj h).symm⟩
  · cases h

theorem joinery_of_fitted {blueprint : Blueprint} {wires : List OpenWire} {internals : List Pin}
    {joints : List Joint} (hparts : ∀ part ∈ blueprint.parts, Fitted part.1)
    (hcheck : blueprint.checkDeclarations = .ok ())
    (hwires : openWires blueprint.name blueprint.wireTexts = .ok wires)
    (hinternals : findInternals blueprint.name blueprint.declaredPins [] wires = .ok internals)
    (hjoints : joinWires blueprint.name (blueprint.declaredPins ++ internals) [] wires =
      .ok joints) :
    blueprint.Joinery internals joints := by
  have hopened := opened_of_openWires hwires
  have hdeclared := checkDeclarations_eq_ok.mp hcheck
  obtain ⟨_, rfl, hjoined, hapart⟩ := (joinWires_eq_ok .nil).mp hjoints
  have hwidths : ∀ wire ∈ wires, 1 ≤ wire.width ∧ wire.width ≤ 16 := by
    intro wire hwire
    obtain ⟨wires', hpart⟩ := (hopened wire hwire).part
    have hordered := (hparts _ (List.mem_of_getElem? hpart)).pinsInOrder
    exact (hopened wire hwire).width_mem (hordered .input) (hordered .output)
  refine ⟨⟨fun joint hjoint => ?_⟩, pinsInOrder_pinsOf hdeclared hwidths hinternals, hparts, hapart⟩
  obtain ⟨wire, hwire, hjoin⟩ := exists_of_forall₂ hjoined hjoint
  exact ⟨wire, hopened wire hwire, OpenWire.joined_of_join hjoin⟩

theorem fitted_of_build {blueprint : Blueprint} {component : Component}
    (hparts : ∀ part ∈ blueprint.parts, Fitted part.1) (h : blueprint.build = .ok component) :
    Fitted component := by
  cases hchip : blueprint.chip with
  | none =>
    obtain ⟨hcheck, wires, internals, joints, hwires, hinternals, hjoints, hassemble⟩ :=
      build_eq_ok hchip h
    exact fitted_of_assemble (joinery_of_fitted hparts hcheck hwires hinternals hjoints) hassemble
  | some chip =>
    obtain ⟨hcheck, -, rfl⟩ := build_chip_eq_ok hchip h
    have hdeclared := checkDeclarations_eq_ok.mp hcheck
    exact .builtIn
      (pinsInOrder_ofDeclarations fun declaration hmem =>
        hdeclared.widths declaration (List.mem_append_left _ hmem))
      (pinsInOrder_ofDeclarations fun declaration hmem =>
        hdeclared.widths declaration (List.mem_append_right _ hmem))

end Blueprint

theorem Standard.wellWired {component : Component} (h : Standard component) :
    WellWired component := by
  induction h with
  | primitive kind => exact .primitive kind
  | composite hchip hclocked _ hbuild ih =>
    obtain ⟨hcheck, wires, internals, joints, hwires, hinternals, hjoints, hassemble⟩ :=
      Blueprint.build_eq_ok hchip hbuild
    have hjoinery := Blueprint.joinery_of_fitted (fun part hpart => (ih part hpart).fitted) hcheck
      hwires hinternals hjoints
    exact Blueprint.wellWired_of_assemble hjoinery ih hclocked hassemble

theorem Built.fitted {component : Component} (h : Built component) : Fitted component := by
  induction h with
  | primitive kind => exact .primitive kind
  | build _ hbuild ih => exact Blueprint.fitted_of_build ih hbuild

end ClockedLogic
