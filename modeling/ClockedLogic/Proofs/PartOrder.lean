import ClockedLogic.Proofs.BlueprintWiring
import ClockedLogic.Proofs.Traversing

/-!
The parts of a composite component are those of its blueprint, each once, with the wires of the
blueprint in their order. A part that drives a pin comes before every part that reads the pin
through an input that is not clocked. Nothing is asked of the components of the parts.
-/

namespace ClockedLogic

inductive Endpoint.Spelled (pins : List Pin) : BusReference → Endpoint → Option BitSpan → Prop where
  | ones : Spelled pins .ones .ones none
  | zeros : Spelled pins .zeros .zeros none
  | pin {pin : Pin} {bits : Option (BitNumber × BitNumber)} {span : Option BitSpan}
    (hpin : pin ∈ pins) (hmeant : Meant pin.width bits span) :
    Spelled pins (.pin pin.name bits) (.pin pin.role pin.index) span

/-- The wire that a pair of references stands for, the first to a pin of a component and the second
to a pin of its owner. -/
structure Wire.Spelled (component : Component) (pins : List Pin) (references : String × String)
    (wire : Wire) : Prop where
  near : ∃ pin ∈ component.inputs ++ component.outputs, ∃ bits,
    BusReference.parse references.1 = .ok (.pin pin.name bits) ∧
      Meant pin.width bits wire.partBits ∧ wire.partIndex = pin.index ∧
      wire.partRole = if pin.role = .input then .input else .output
  far : ∃ reference, BusReference.parse references.2 = .ok reference ∧
    Endpoint.Spelled pins reference wire.owner wire.ownerBits

/-- Whether a part drives bits of a pin that another reads through an input that is not clocked. -/
def Part.Feeds (part other : Part Component) : Prop :=
  ∃ role index,
    (∃ wire ∈ part.wires, wire.partRole = .output ∧ wire.owner = .pin role index) ∧
    ∃ wire ∈ other.wires, wire.partRole = .input ∧ wire.owner = .pin role index ∧
      other.component.isInputClocked wire.partIndex = false

theorem forall₂_trans {α β γ : Type} {here : α → β → Prop} {there : β → γ → Prop}
    {related : α → γ → Prop} {first : List α} {second : List β} {third : List γ}
    (h : List.Forall₂ here first second) (h' : List.Forall₂ there second third)
    (htrans : ∀ a b c, here a b → there b c → related a c) :
    List.Forall₂ related first third := by
  induction h generalizing third with
  | nil =>
    cases h'
    exact .nil
  | @cons a b _ _ hhead _ ih =>
    cases h' with
    | cons hnext hrest => exact .cons (htrans a b _ hhead hnext) (ih hrest)

namespace Blueprint

variable {blueprint : Blueprint} {internals : List Pin} {joints : List Joint}

structure Renders (blueprint : Blueprint) (internals : List Pin)
    (text : Nat × Component × (String × String)) (joint : Joint) : Prop where
  part : joint.part = text.1
  spelled : joint.wire.Spelled text.2.1 (blueprint.declaredPins ++ internals) text.2.2

theorem renders_of_joined {text : Nat × Component × (String × String)} {wire : OpenWire}
    {joint : Joint} (hreads : wire.Reads text)
    (hjoined : wire.Joined (blueprint.declaredPins ++ internals) joint) :
    blueprint.Renders internals text joint := by
  obtain ⟨hpart, hcomponent, hpin, ⟨bits, hnear, hmeant⟩, hfar⟩ := hreads
  rw [hcomponent] at hpin
  cases hjoined with
  | ones hinput howner =>
    rw [howner] at hfar
    exact ⟨hpart, ⟨_, hpin, bits, hnear, hmeant, rfl, by simp [OpenWire.source, hinput]⟩,
      _, hfar, .ones⟩
  | zeros hinput howner =>
    rw [howner] at hfar
    exact ⟨hpart, ⟨_, hpin, bits, hnear, hmeant, rfl, by simp [OpenWire.source, hinput]⟩,
      _, hfar, .zeros⟩
  | read hinput howner hmem hrole hspan =>
    rw [howner] at hfar
    exact ⟨hpart, ⟨_, hpin, bits, hnear, hmeant, rfl, by simp [OpenWire.source, hinput]⟩,
      _, hfar, .pin hmem hspan⟩
  | drive houtput howner hmem hrole hwhole hspan =>
    rw [howner] at hfar
    exact ⟨hpart, ⟨_, hpin, bits, hnear, hmeant, rfl, by simp [OpenWire.target, houtput]⟩,
      _, hfar, .pin hmem hspan⟩

/-- Every wire of the blueprint has its joint, in the same order. -/
theorem forall₂_renders {wires : List OpenWire}
    (hwires : openWires blueprint.name blueprint.wireTexts = .ok wires)
    (hjoints : joinWires blueprint.name (blueprint.declaredPins ++ internals) [] wires =
      .ok joints) :
    List.Forall₂ (blueprint.Renders internals) blueprint.wireTexts joints := by
  obtain ⟨_, rfl, hjoined, -⟩ := (joinWires_eq_ok .nil).mp hjoints
  exact forall₂_trans (openWires_eq_ok.mp hwires) hjoined fun text wire joint hopen hjoin =>
    renders_of_joined (reads_of_openWire hopen) (OpenWire.joined_of_join hjoin)

/-- The wires of one part among the wires of all parts. -/
theorem filter_wireTexts {position : Nat} {component : Component} {wires : List (String × String)}
    (h : blueprint.parts[position]? = some (component, wires)) :
    (blueprint.wireTexts.filter fun text => text.1 == position) =
      wires.map fun references => (position, component, references) := by
  obtain ⟨hlt, hget⟩ := List.getElem?_eq_some_iff.mp h
  have hsplit : blueprint.parts = blueprint.parts.take position ++
      (component, wires) :: blueprint.parts.drop (position + 1) := by
    rw [← hget, ← List.drop_eq_getElem_cons hlt, List.take_append_drop]
  have hlength : (blueprint.parts.take position).length = position := by
    rw [List.length_take]
    omega
  obtain ⟨texts, hall, htexts⟩ : ∃ texts,
      blueprint.wireTexts = blueprint.parts.zipIdx.flatMap texts ∧
      ∀ component wires index, texts ((component, wires), index) =
        wires.map fun references => (index, component, references) :=
    ⟨_, rfl, fun _ _ _ => rfl⟩
  have hothers : ∀ (parts : List (Component × List (String × String))) (start : Nat),
      position < start ∨ start + parts.length ≤ position →
      ((parts.zipIdx start).flatMap texts).filter (fun text => text.1 == position) = [] := by
    intro parts start hapart
    rw [List.filter_eq_nil_iff]
    intro text htext
    obtain ⟨⟨⟨other, others⟩, index⟩, hpart, htext⟩ := List.mem_flatMap.mp htext
    rw [htexts] at htext
    obtain ⟨references, -, rfl⟩ := List.mem_map.mp htext
    have hle := List.le_snd_of_mem_zipIdx hpart
    have hltIndex := List.snd_lt_add_of_mem_zipIdx hpart
    simp only [beq_iff_eq]
    omega
  rw [hall, hsplit, List.zipIdx_append, List.flatMap_append, List.filter_append,
    hothers _ 0 (by omega), List.nil_append, List.zipIdx_cons, List.flatMap_cons,
    List.filter_append, hothers _ _ (by omega), List.append_nil, hlength, Nat.zero_add, htexts,
    List.filter_map, List.filter_eq_self.mpr (by simp)]

/-- The part at a position has the wires of the blueprint in their order. -/
theorem wires_of_part? (h : List.Forall₂ (blueprint.Renders internals) blueprint.wireTexts joints)
    {position : Nat} {part : Part Component}
    (hpart : blueprint.part? joints position = some part) :
    ∃ wires, blueprint.parts[position]? = some (part.component, wires) ∧
      List.Forall₂ (Wire.Spelled part.component (blueprint.declaredPins ++ internals)) wires
        part.wires := by
  obtain ⟨⟨component, wires⟩, hget, rfl⟩ := Option.map_eq_some_iff.mp hpart
  refine ⟨wires, hget, ?_⟩
  have hmine : List.Forall₂ (blueprint.Renders internals)
      (blueprint.wireTexts.filter fun text => text.1 == position)
      (joints.filter fun joint => joint.part == position) := by
    refine List.rel_filter (fun text joint hrenders => ?_) h
    simp only [hrenders.part]
  rw [filter_wireTexts hget, List.forall₂_map_left_iff] at hmine
  exact List.forall₂_map_right_iff.mpr (hmine.imp fun _ _ hrenders => hrenders.spelled)

theorem joining_of_joinWires {wires : List OpenWire}
    (hwires : openWires blueprint.name blueprint.wireTexts = .ok wires)
    (hjoints : joinWires blueprint.name (blueprint.declaredPins ++ internals) [] wires =
      .ok joints) :
    blueprint.Joining internals joints := by
  obtain ⟨_, rfl, hjoined, -⟩ := (joinWires_eq_ok .nil).mp hjoints
  refine ⟨fun joint hjoint => ?_⟩
  obtain ⟨wire, hwire, hjoin⟩ := exists_of_forall₂ hjoined hjoint
  exact ⟨wire, opened_of_openWires hwires wire hwire, OpenWire.joined_of_join hjoin⟩

/-- The root comes before every part, so a traversal from it meets them all. -/
theorem perm_positions (blueprint : Blueprint) (joints : List Joint) :
    ((blueprint.sortedParts joints
      ((blueprint.dependencies joints).traverse .root).order).map (·.position)).Perm
        (List.range blueprint.parts.length) := by
  have hcoherent := blueprint.coherent_dependencies joints
  refine (List.perm_ext_iff_of_nodup (Joinery.nodup_positions hcoherent) List.nodup_range).mpr
    fun position => ?_
  rw [List.mem_map, List.mem_range]
  constructor
  · rintro ⟨part, hpart, rfl⟩
    obtain ⟨⟨_, hget⟩, -⟩ := Joinery.mem_sortedParts hpart
    exact (List.getElem?_eq_some_iff.mp hget).1
  · intro hlt
    have hroot := blueprint.hasEdge_root joints (.inr ⟨position, hlt, rfl⟩)
    have hmem := Digraph.mem_order_traverse hcoherent (blueprint.root_mem_dependencies joints)
      (.single hroot)
    obtain ⟨part, hpart⟩ : ∃ part, blueprint.part? joints position = some part :=
      ⟨_, by rw [part?, List.getElem?_eq_getElem hlt, Option.map_some]⟩
    obtain rfl := (Joinery.of_part? hpart).1
    exact ⟨part, Joinery.mem_sortedParts_iff.mpr ⟨hmem, hpart⟩, rfl⟩

/-- Parts come in the order of their places in the traversal. -/
theorem pairwise_sortedParts (joints : List Joint) {order : List Vertex} (hnodup : order.Nodup) :
    (blueprint.sortedParts joints order).Pairwise fun earlier later =>
      order.idxOf (.part earlier.position) < order.idxOf (.part later.position) := by
  have hplaces : order.Pairwise fun a b => order.idxOf a < order.idxOf b := by
    refine List.pairwise_iff_getElem.mpr fun i j hi hj hlt => ?_
    rwa [hnodup.idxOf_getElem, hnodup.idxOf_getElem]
  rw [sortedParts, List.pairwise_filterMap]
  refine hplaces.imp fun {a b} hlt earlier hearlier later hlater => ?_
  cases a with
  | part first =>
    cases b with
    | part second =>
      rwa [(Joinery.of_part? hearlier).1, (Joinery.of_part? hlater).1]
    | _ => cases hlater
  | _ => cases hearlier

theorem lt_of_feeds (h : blueprint.Joining internals joints)
    (hcircle : ((blueprint.dependencies joints).traverse .root).circle = none) {i j : Nat}
    {part other : Part Component}
    (hpart : (blueprint.sortedParts joints
      ((blueprint.dependencies joints).traverse .root).order)[i]? = some part)
    (hother : (blueprint.sortedParts joints
      ((blueprint.dependencies joints).traverse .root).order)[j]? = some other)
    (hfeeds : part.Feeds other) : i < j := by
  have hexact := (blueprint.coherent_dependencies joints).exact_traverse .root
  have hpairs := blueprint.pairwise_sortedParts joints hexact.nodup
  obtain ⟨role, index, ⟨driver, hdriver, houtput, hdrives⟩, reader, hreader, hinput, hreads,
    hunclocked⟩ := hfeeds
  obtain ⟨hfirst, -⟩ := h.hasEdge_of_dependency
    (.drive (List.mem_of_getElem? hpart) hdriver houtput hdrives)
  obtain ⟨hsecond, -⟩ := h.hasEdge_of_dependency
    (.read (List.mem_of_getElem? hother) hreader hinput hreads hunclocked)
  obtain ⟨⟨_, hget⟩, -⟩ := Joinery.mem_sortedParts (List.mem_of_getElem? hpart)
  have hroot := blueprint.hasEdge_root joints
    (.inr ⟨part.position, (List.getElem?_eq_some_iff.mp hget).1, rfl⟩)
  have hlt := Nat.lt_trans (hexact.before hcircle _ _ (.single hroot) hfirst)
    (hexact.before hcircle _ _ (.tail (.single hroot) hfirst) hsecond)
  obtain ⟨hi, rfl⟩ := List.getElem?_eq_some_iff.mp hpart
  obtain ⟨hj, rfl⟩ := List.getElem?_eq_some_iff.mp hother
  rcases Nat.lt_trichotomy i j with hbefore | rfl | hafter
  · exact hbefore
  · omega
  · have := List.pairwise_iff_getElem.mp hpairs j i hj hi hafter
    omega

/-- What is composite comes from a blueprint without a chip. -/
theorem chip_of_build_composite {interface : Interface} {parts : List (Part Component)}
    {dependencies : Digraph Vertex}
    (hbuild : blueprint.build = .ok (.composite interface internals parts dependencies)) :
    blueprint.chip = none := by
  cases hchip : blueprint.chip with
  | none => rfl
  | some chip => cases (build_chip_eq_ok hchip hbuild).2.2

theorem exists_joining {interface : Interface} {parts : List (Part Component)}
    {dependencies : Digraph Vertex}
    (hbuild : blueprint.build = .ok (.composite interface internals parts dependencies)) :
    ∃ joints, blueprint.Joining internals joints ∧
      List.Forall₂ (blueprint.Renders internals) blueprint.wireTexts joints ∧
      interface.inputs ++ interface.outputs = blueprint.declaredPins ∧
      dependencies = blueprint.dependencies joints ∧
      ((blueprint.dependencies joints).traverse .root).circle = none ∧
      parts = blueprint.sortedParts joints
        ((blueprint.dependencies joints).traverse .root).order := by
  obtain ⟨-, wires, found, joints, hwires, -, hjoints, hassemble⟩ :=
    build_eq_ok (chip_of_build_composite hbuild) hbuild
  obtain ⟨hcircle, hcomponent⟩ := assemble_eq_ok.mp hassemble
  cases hcomponent
  exact ⟨joints, joining_of_joinWires hwires hjoints, forall₂_renders hwires hjoints, rfl, rfl,
    hcircle, rfl⟩

/-- Every part of the blueprint is among the parts of the component once, with its component and
its wires as they are declared, and a part that feeds another comes before it. -/
theorem parts_of_build {interface : Interface} {parts : List (Part Component)}
    {dependencies : Digraph Vertex}
    (hbuild : blueprint.build = .ok (.composite interface internals parts dependencies)) :
    (parts.map (·.position)).Perm (List.range blueprint.parts.length) ∧
    (∀ part ∈ parts, ∃ wires, blueprint.parts[part.position]? = some (part.component, wires) ∧
      List.Forall₂ (Wire.Spelled part.component
        (interface.inputs ++ interface.outputs ++ internals)) wires part.wires) ∧
    ∀ (i j : Nat) (part other : Part Component), parts[i]? = some part →
      parts[j]? = some other → part.Feeds other → i < j := by
  obtain ⟨joints, hjoining, hrenders, hpins, -, hcircle, rfl⟩ := exists_joining hbuild
  refine ⟨perm_positions blueprint joints, fun part hpart => ?_,
    fun i j part other hi hj hfeeds => lt_of_feeds hjoining hcircle hi hj hfeeds⟩
  rw [hpins]
  exact wires_of_part? hrenders (Joinery.mem_sortedParts_iff.mp hpart).2

/-- Two inverters in a row, the second declared first, with an output that is declared as
clocked. -/
def twofold : Blueprint where
  name := "Twofold"
  inputs := [("in", 1)]
  outputs := [("out", 1)]
  clocked := ["out"]
  parts := [(Primitive.not.component, [("in", "inverted"), ("out", "out")]),
    (Primitive.not.component, [("in", "in"), ("out", "inverted")])]
  chip := none

theorem parts_of_build_twofold : ∃ interface internals parts dependencies,
    twofold.build = .ok (.composite interface internals parts dependencies) ∧
    parts.map (·.position) = [1, 0] ∧
    (parts.map (·.position)).Perm (List.range twofold.parts.length) ∧
    (∀ part ∈ parts, ∃ wires, twofold.parts[part.position]? = some (part.component, wires) ∧
      List.Forall₂ (Wire.Spelled part.component
        (interface.inputs ++ interface.outputs ++ internals)) wires part.wires) ∧
    ∀ (i j : Nat) (part other : Part Component), parts[i]? = some part →
      parts[j]? = some other → part.Feeds other → i < j := by
  have hok : (twofold.build.toOption.any fun component =>
      component.parts.map (·.position) = [1, 0]) = true := by decide +kernel
  cases hbuild : twofold.build with
  | error error =>
    rw [hbuild] at hok
    cases hok
  | ok component =>
    rw [hbuild] at hok
    have hpositions : component.parts.map (·.position) = [1, 0] := of_decide_eq_true hok
    cases component with
    | builtIn interface chip => cases hpositions
    | composite interface internals parts dependencies =>
      exact ⟨interface, internals, parts, dependencies, rfl, hpositions, parts_of_build hbuild⟩

end Blueprint

end ClockedLogic
