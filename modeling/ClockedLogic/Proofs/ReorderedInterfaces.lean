import ClockedLogic.Proofs.ReorderedBuilds

/-!
What the surroundings see of reordered blueprints. Reordering gives the vertices of the dependencies
other numbers, so wires lead from an input to an output in both components or in neither. The same
pins are cut off, and the same pins are clocked.
-/

namespace ClockedLogic

open Component

/-- Whether an element has a property depends on what the property says of the elements. -/
theorem any_eq_any_of_forall {α : Type} {items : List α} {holds holds' : α → Bool}
    (h : ∀ item ∈ items, holds item = holds' item) : items.any holds = items.any holds' := by
  rw [Bool.eq_iff_iff, List.any_eq_true, List.any_eq_true]
  exact exists_congr fun item => and_congr_right fun hitem => by rw [h item hitem]

def Vertex.moved (place number : Nat → Nat) : Vertex → Vertex
  | .root => .root
  | .input index => .input index
  | .output index => .output index
  | .internal index => .internal (number index)
  | .part position => .part (place position)

theorem Pin.vertex_moved (place number : Nat → Nat) (pin : Pin) :
    pin.vertex.moved place number = (pin.renumbered number).vertex := by
  rw [vertex_eq, vertex_eq, renumbered]
  cases pin.role <;> rfl

theorem Linked.moved {place number : Nat → Nat} {pins pins' : List Pin}
    {wires wires' : List OpenWire} (hpins : ∀ pin ∈ pins', pin.renumbered number ∈ pins)
    (hwires : ∀ wire ∈ wires', wire.moved place ∈ wires) {a b : Vertex}
    (h : Linked pins' wires' a b) :
    Linked pins wires (a.moved place number) (b.moved place number) := by
  cases h with
  | @read _ pin _ hwire hinput howner hpin hclocked =>
    rw [pin.vertex_moved]
    exact @Linked.read pins wires _ _ _ (hwires _ hwire) hinput howner (hpins pin hpin) hclocked
  | @drive _ pin _ hwire houtput howner hpin =>
    rw [pin.vertex_moved]
    exact @Linked.drive pins wires _ _ _ (hwires _ hwire) houtput howner (hpins pin hpin)

/-- Whether one of the parts has a property does not depend on their order. -/
theorem Component.Rearranges.any_parts {order number : Nat → Nat} {component other : Component}
    (h : component.Rearranges order number other) (holds : Component → Bool) :
    component.parts.any (fun part => holds part.component) =
      other.parts.any fun part => holds part.component := by
  rw [Bool.eq_iff_iff, List.any_eq_true, List.any_eq_true]
  constructor
  · rintro ⟨part, hpart, hholds⟩
    obtain ⟨position, hposition, hfound⟩ := h.parts_onto part hpart
    obtain ⟨found, hsame, hcomponent, -⟩ :=
      h.parts position _ (List.getElem?_eq_getElem hposition)
    obtain rfl := Option.some.inj (hsame.symm.trans hfound)
    exact ⟨_, List.getElem_mem hposition, hcomponent ▸ hholds⟩
  · rintro ⟨part, hpart, hholds⟩
    obtain ⟨position, hposition⟩ := List.mem_iff_getElem?.mp hpart
    obtain ⟨found, hfound, hcomponent, -⟩ := h.parts position part hposition
    exact ⟨found, List.mem_of_getElem? hfound, hcomponent ▸ hholds⟩

namespace Blueprint

variable {blueprint other : Blueprint} {place : Equiv.Perm Nat} {wires wires' : List OpenWire}
  {internals internals' : List Pin} {joints joints' : List Joint} {number number' : Nat → Nat}

theorem interface_congr {isClocked : Bool} {isInferred isInferred' : Pin → Bool}
    (h : ∀ pin ∈ blueprint.declaredPins, isInferred pin = isInferred' pin) :
    blueprint.interface isClocked isInferred = blueprint.interface isClocked isInferred' := by
  have hflags : ∀ pins : List Pin, (∀ pin ∈ pins, pin ∈ blueprint.declaredPins) →
      pins.map (fun pin => blueprint.isDeclaredClocked pin || isInferred pin) =
        pins.map fun pin => blueprint.isDeclaredClocked pin || isInferred' pin := by
    intro pins hpins
    exact List.map_congr_left fun pin hpin => by rw [h pin (hpins pin hpin)]
  rw [interface, interface, hflags _ fun _ => List.mem_append_left _,
    hflags _ fun _ => List.mem_append_right _]

/-- Internal pins of one name are one. -/
theorem Scanned.nodup_internals (h : blueprint.Scanned wires internals) :
    (internals.map fun pin => (pin.name, pin.width)).Nodup := by
  have hnames := h.found.nodup
  rw [List.map_append, List.nodup_append] at hnames
  refine .of_map Prod.fst ?_
  rw [List.map_map]
  exact hnames.2.1

namespace Rejoins

variable (h : Rejoins place number blueprint other wires wires' internals internals' joints joints')

include h

/-- What is reached after reordering is reached before. -/
theorem reaches {pin far : Pin} (hpin : pin ∈ blueprint.inputPins)
    (hfar : far ∈ blueprint.outputPins)
    (hreaches : (other.dependencies joints').reaches pin.vertex far.vertex = true) :
    (blueprint.dependencies joints).reaches pin.vertex far.vertex = true := by
  obtain ⟨index, hindex⟩ := List.mem_iff_getElem?.mp hpin
  obtain ⟨index', hindex'⟩ := List.mem_iff_getElem?.mp hfar
  obtain ⟨hrole, rfl, -⟩ := h.jointed.scanned.ordered .input index pin hindex
  obtain ⟨hrole', rfl, -⟩ := h.jointed.scanned.ordered .output index' far hindex'
  have hvertex : pin.vertex = .input pin.index := by rw [Pin.vertex_eq, hrole, PinRole.vertex]
  have hvertex' : far.vertex = .output far.index := by rw [Pin.vertex_eq, hrole', PinRole.vertex]
  have hlt : pin.index < blueprint.inputs.length := by
    simpa [inputPins, Pin.ofDeclarations] using (List.getElem?_eq_some_iff.mp hindex).1
  rw [hvertex, hvertex'] at hreaches ⊢
  rcases Relation.reflTransGen_iff_eq_or_transGen.mp (Digraph.path_of_reaches hreaches)
    with hsame | hpath
  · cases hsame
  · have hlinked := (h.jointed'.path_of_ne_root hpath (by simp)).1
    have hmoved := hlinked.lift (Vertex.moved place.symm number) fun _ _ hlink =>
      h.jointed.hasEdge_iff.mpr (.inr (hlink.moved h.numbers fun _ => h.symm.mem))
    exact Digraph.reaches_of_path (blueprint.coherent_dependencies joints)
      (blueprint.hasEdge_root joints (.inl ⟨_, hlt, rfl⟩)).mem_target hmoved.to_reflTransGen

theorem mem_internals {entry : String × Nat}
    (hentry : entry ∈ internals'.map fun pin => (pin.name, pin.width)) :
    entry ∈ internals.map fun pin => (pin.name, pin.width) := by
  obtain ⟨pin, hpin, rfl⟩ := List.mem_map.mp hentry
  obtain ⟨index, hindex⟩ := List.mem_iff_getElem?.mp hpin
  obtain ⟨hrole, -⟩ := h.jointed'.scanned.ordered .internal index pin hindex
  have hplace := blueprint.getElem?_pinsOf h.jointed.scanned.ordered
    (h.numbers pin (List.mem_append_right _ hpin))
  have hinternal : (pin.renumbered number).role = .internal := hrole
  rw [hinternal] at hplace
  exact List.mem_map.mpr ⟨_, List.mem_of_getElem? hplace, rfl⟩

variable (h' : Rejoins place.symm number' other blueprint wires' wires internals' internals joints'
  joints)

include h'

theorem reaches_eq {pin far : Pin} (hpin : pin ∈ blueprint.inputPins)
    (hfar : far ∈ blueprint.outputPins) :
    (blueprint.dependencies joints).reaches pin.vertex far.vertex =
      (other.dependencies joints').reaches pin.vertex far.vertex :=
  Bool.eq_iff_iff.mpr ⟨h'.reaches (h.inputPins_eq ▸ hpin) (h.outputPins_eq ▸ hfar),
    h.reaches hpin hfar⟩

theorem isCutOff_eq {pin : Pin} (hpin : pin ∈ blueprint.declaredPins) :
    blueprint.isCutOff (blueprint.dependencies joints) pin =
      other.isCutOff (other.dependencies joints') pin := by
  rw [isCutOff, isCutOff, h.inputPins_eq, h.outputPins_eq]
  rcases List.mem_append.mp hpin with hinput | houtput
  · obtain ⟨index, hindex⟩ := List.mem_iff_getElem?.mp hinput
    rw [(h.jointed.scanned.ordered .input index pin hindex).1]
    exact congrArg (!·) (any_eq_any_of_forall fun far hfar => h.reaches_eq h' hinput hfar)
  · obtain ⟨index, hindex⟩ := List.mem_iff_getElem?.mp houtput
    rw [(h.jointed.scanned.ordered .output index pin hindex).1]
    exact congrArg (!·) (any_eq_any_of_forall fun far hfar => h.reaches_eq h' hfar houtput)

/-- Internal pins have the same names and widths. -/
theorem perm_internals : (internals.map fun pin => (pin.name, pin.width)).Perm
    (internals'.map fun pin => (pin.name, pin.width)) :=
  (List.perm_ext_iff_of_nodup h.jointed.scanned.nodup_internals
    h.jointed'.scanned.nodup_internals).mpr fun _ => ⟨h'.mem_internals, h.mem_internals⟩

/-- Both components look alike from outside. -/
theorem interface_laidOut_eq {order order' : List Vertex}
    (horder : ∀ position < blueprint.parts.length, .part position ∈ order)
    (horder' : ∀ position < other.parts.length, .part position ∈ order') :
    (blueprint.laidOut internals joints order).interface =
      (other.laidOut internals' joints' order').interface := by
  obtain ⟨rank, hrearranges⟩ := h.exists_rearranges horder horder' h'.numbers
  have hclocked : other.declaredPins.any other.isDeclaredClocked =
      blueprint.declaredPins.any blueprint.isDeclaredClocked := by
    rw [h.declaredPins_eq, h.isDeclaredClocked_eq]
  have hany := hrearranges.any_parts isClocked
  rw [parts_laidOut, parts_laidOut] at hany
  simp only [laidOut, Component.interface, hclocked, hany, h.interface_eq]
  exact interface_congr fun pin hpin => by rw [h.isCutOff_eq h' hpin]

end Rejoins
end Blueprint
end ClockedLogic
