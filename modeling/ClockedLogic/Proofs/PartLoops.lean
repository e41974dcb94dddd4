import ClockedLogic.Proofs.Legality

/-!
Circles of the dependencies. Nothing leads back to the root, to an input or from an output, so a
circle alternates between parts and pins that one part drives and the next one reads: it is a loop
of parts that feed each other. The search reports a circle just where there is such a loop.
-/

namespace ClockedLogic

theorem Pin.vertex_inj {pin other : Pin} (h : pin.vertex = other.vertex) :
    pin.role = other.role ∧ pin.index = other.index := by
  rw [vertex_eq, vertex_eq] at h
  cases hrole : pin.role <;> cases hrole' : other.role <;>
    simp_all [PinRole.vertex]

theorem Pin.vertex_ne_part (pin : Pin) (position : Nat) : pin.vertex ≠ .part position := by
  rw [vertex_eq]
  cases pin.role <;> simp [PinRole.vertex]

inductive Linked (pins : List Pin) (wires : List OpenWire) : Vertex → Vertex → Prop where
  | read {wire : OpenWire} {pin : Pin} {bits : Option (BitNumber × BitNumber)}
    (hwire : wire ∈ wires) (hinput : wire.pin.role = .input)
    (howner : wire.owner = .pin pin.name bits) (hpin : pin ∈ pins)
    (hclocked : wire.component.isInputClocked wire.pin.index = false) :
    Linked pins wires pin.vertex (.part wire.part)
  | drive {wire : OpenWire} {pin : Pin} {bits : Option (BitNumber × BitNumber)}
    (hwire : wire ∈ wires) (houtput : wire.pin.role = .output)
    (howner : wire.owner = .pin pin.name bits) (hpin : pin ∈ pins) :
    Linked pins wires (.part wire.part) pin.vertex

namespace Linked

variable {pins : List Pin} {wires : List OpenWire}

theorem of_part {part : Nat} {vertex : Vertex} (h : Linked pins wires (.part part) vertex) :
    ∃ wire ∈ wires, wire.part = part ∧ wire.pin.role = .output ∧
      ∃ pin ∈ pins, vertex = pin.vertex ∧ ∃ bits, wire.owner = .pin pin.name bits := by
  generalize hpart : Vertex.part part = first at h
  cases h with
  | @read _ pin => exact absurd hpart.symm (pin.vertex_ne_part part)
  | drive hwire houtput howner hpin =>
    obtain rfl := Vertex.part.inj hpart
    exact ⟨_, hwire, rfl, houtput, _, hpin, rfl, _, howner⟩

theorem to_part {part : Nat} {vertex : Vertex} (h : Linked pins wires vertex (.part part)) :
    ∃ wire ∈ wires, wire.part = part ∧ wire.pin.role = .input ∧
      wire.component.isInputClocked wire.pin.index = false ∧
      ∃ pin ∈ pins, vertex = pin.vertex ∧ ∃ bits, wire.owner = .pin pin.name bits := by
  generalize hpart : Vertex.part part = second at h
  cases h with
  | read hwire hinput howner hpin hclocked =>
    obtain rfl := Vertex.part.inj hpart
    exact ⟨_, hwire, rfl, hinput, hclocked, _, hpin, rfl, _, howner⟩
  | @drive _ pin => exact absurd hpart.symm (pin.vertex_ne_part part)

/-- Between two parts there is a pin, and between two pins there is a part. -/
theorem part_or_pin {a b : Vertex} (h : Linked pins wires a b) :
    (∃ part, b = .part part) ∨ ∃ part, a = .part part := by
  cases h with
  | read => exact .inl ⟨_, rfl⟩
  | drive => exact .inr ⟨_, rfl⟩

theorem target_ne_root {a b : Vertex} (h : Linked pins wires a b) : b ≠ .root := by
  cases h with
  | read => simp
  | @drive _ pin =>
    rw [Pin.vertex_eq]
    cases pin.role <;> simp [PinRole.vertex]

theorem exists_part {vertex : Vertex}
    (h : Relation.TransGen (Linked pins wires) vertex vertex) :
    ∃ part, Relation.TransGen (Linked pins wires) (.part part) (.part part) := by
  obtain ⟨next, hfirst, hrest⟩ := Relation.TransGen.head'_iff.mp h
  rcases hfirst.part_or_pin with ⟨part, rfl⟩ | ⟨part, rfl⟩
  · exact ⟨part, .tail' hrest hfirst⟩
  · exact ⟨part, h⟩

end Linked

namespace Blueprint

structure Jointed (blueprint : Blueprint) (wires : List OpenWire) (internals : List Pin)
    (joints : List Joint) : Prop where
  scanned : blueprint.Scanned wires internals
  joined : List.Forall₂ (fun wire joint =>
    OpenWire.Joined (blueprint.declaredPins ++ internals) wire joint) wires joints

namespace Jointed

variable {blueprint : Blueprint} {wires : List OpenWire} {internals : List Pin}
  {joints : List Joint}

/-- The edges of joints are the dependencies that wires make. -/
theorem exists_edge_iff (h : blueprint.Jointed wires internals joints) {a b : Vertex} :
    (∃ joint ∈ joints, joint.edge = some (a, b)) ↔
      Linked (blueprint.declaredPins ++ internals) wires a b := by
  constructor
  · rintro ⟨joint, hjoint, hedge⟩
    obtain ⟨wire, hwire, hjoined⟩ := exists_of_forall₂ h.joined hjoint
    cases hjoined with
    | ones => simp [OpenWire.source] at hedge
    | zeros => simp [OpenWire.source] at hedge
    | read hinput howner hpin =>
      simp only [OpenWire.source, Option.map_some] at hedge
      split at hedge
      · cases hedge
      · rename_i hclocked
        cases hedge
        exact .read hwire hinput howner hpin (Bool.eq_false_iff.mpr hclocked)
    | drive houtput howner hpin =>
      cases hedge
      exact .drive hwire (h.scanned.role_eq_output hwire houtput) howner hpin
  · intro hlinked
    cases hlinked with
    | @read wire pin bits hwire hinput howner hpin hclocked =>
      obtain ⟨joint, hjoint, hjoined⟩ := exists_of_forall₂ h.joined.flip hwire
      obtain ⟨other, hother, hname, -, _, rfl⟩ := hjoined.of_input hinput howner
      obtain rfl := h.scanned.eq_of_name hother hpin hname
      exact ⟨_, hjoint, by simp [OpenWire.source, hclocked]⟩
    | @drive wire pin bits hwire houtput howner hpin =>
      obtain ⟨joint, hjoint, hjoined⟩ := exists_of_forall₂ h.joined.flip hwire
      obtain ⟨other, hother, _, _, hfar, -, -, -, -, rfl⟩ := hjoined.of_output houtput
      rw [howner] at hfar
      obtain rfl := h.scanned.eq_of_name hpin hother (BusReference.pin.inj hfar).1
      exact ⟨_, hjoint, rfl⟩

/-- A part that feeds another one comes before it by way of a pin. -/
theorem linked_of_feeds (h : blueprint.Jointed wires internals joints) {part other : Nat}
    (hfeeds : Feeds wires part other) :
    ∃ vertex, Linked (blueprint.declaredPins ++ internals) wires (.part part) vertex ∧
      Linked (blueprint.declaredPins ++ internals) wires vertex (.part other) := by
  cases hfeeds with
  | @intro driver reader _ _ _ hdriver hreader houtput hinput hclocked howner howner' =>
    obtain ⟨joint, -, hjoined⟩ := exists_of_forall₂ h.joined.flip hdriver
    obtain ⟨pin, hpin, _, _, hfar, -⟩ := hjoined.of_output houtput
    obtain ⟨rfl, -⟩ := BusReference.pin.inj (howner.symm.trans hfar)
    exact ⟨_, .drive hdriver houtput howner hpin, .read hreader hinput howner' hpin hclocked⟩

theorem feeds_of_linked (h : blueprint.Jointed wires internals joints) {part other : Nat}
    {vertex : Vertex}
    (hfirst : Linked (blueprint.declaredPins ++ internals) wires (.part part) vertex)
    (hsecond : Linked (blueprint.declaredPins ++ internals) wires vertex (.part other)) :
    Feeds wires part other := by
  obtain ⟨driver, hdriver, rfl, houtput, pin, hpin, rfl, _, howner⟩ := hfirst.of_part
  obtain ⟨reader, hreader, rfl, hinput, hclocked, pin', hpin', hvertex, _, howner'⟩ :=
    hsecond.to_part
  obtain ⟨hrole, hindex⟩ := Pin.vertex_inj hvertex
  obtain rfl := h.scanned.eq_of_place hpin hpin' hrole hindex
  exact .intro hdriver hreader houtput hinput hclocked howner howner'

/-- A path between parts leads through parts that feed each other. -/
theorem feeds_of_path (h : blueprint.Jointed wires internals joints) {part : Nat} {vertex : Vertex}
    (hpath : Relation.TransGen (Linked (blueprint.declaredPins ++ internals) wires) (.part part)
      vertex) :
    ∃ last, Relation.ReflTransGen (Feeds wires) part last ∧
      (Linked (blueprint.declaredPins ++ internals) wires (.part last) vertex ∨
        vertex = .part last ∧ Relation.TransGen (Feeds wires) part last) := by
  induction hpath with
  | single hlinked => exact ⟨part, .refl, .inl hlinked⟩
  | @tail middle next _ hlinked ih =>
    obtain ⟨last, hfeeds, hcases⟩ := ih
    rcases hcases with hlast | ⟨rfl, hloop⟩
    · rcases hlinked.part_or_pin with ⟨reader, rfl⟩ | ⟨reader, rfl⟩
      · have hnext := h.feeds_of_linked hlast hlinked
        exact ⟨reader, hfeeds.tail hnext, .inr ⟨rfl, .tail' hfeeds hnext⟩⟩
      · obtain ⟨_, -, -, -, pin, -, hpin, -⟩ := hlast.of_part
        exact absurd hpin.symm (pin.vertex_ne_part reader)
    · exact ⟨last, hfeeds, .inl hlinked⟩

/-- Apart from the root the edges are the dependencies that wires make. -/
theorem hasEdge_iff (h : blueprint.Jointed wires internals joints) {a b : Vertex} :
    (blueprint.dependencies joints).HasEdge a b ↔
      (a = .root ∧ ((∃ i < blueprint.inputs.length, b = .input i) ∨
        ∃ p < blueprint.parts.length, b = .part p)) ∨
      Linked (blueprint.declaredPins ++ internals) wires a b := by
  rw [hasEdge_dependencies, h.exists_edge_iff]

/-- The root is on no path that does not start with it. -/
theorem path_of_ne_root (h : blueprint.Jointed wires internals joints) {a b : Vertex}
    (hpath : Relation.TransGen (blueprint.dependencies joints).HasEdge a b) (hne : a ≠ .root) :
    Relation.TransGen (Linked (blueprint.declaredPins ++ internals) wires) a b ∧ b ≠ .root := by
  induction hpath with
  | single hedge =>
    have hlinked := (h.hasEdge_iff.mp hedge).resolve_left fun hroot => hne hroot.1
    exact ⟨.single hlinked, hlinked.target_ne_root⟩
  | tail _ hedge ih =>
    have hlinked := (h.hasEdge_iff.mp hedge).resolve_left fun hroot => ih.2 hroot.1
    exact ⟨ih.1.tail hlinked, hlinked.target_ne_root⟩

theorem ne_root_of_hasEdge (h : blueprint.Jointed wires internals joints) {a b : Vertex}
    (hedge : (blueprint.dependencies joints).HasEdge a b) : b ≠ .root := by
  rcases h.hasEdge_iff.mp hedge with ⟨-, ⟨_, -, rfl⟩ | ⟨_, -, rfl⟩⟩ | hlinked
  · simp
  · simp
  · exact hlinked.target_ne_root

/-- The search reports no circle if and only if no part feeds itself. -/
theorem circle_eq_none_iff (h : blueprint.Jointed wires internals joints) :
    ((blueprint.dependencies joints).traverse .root).circle = none ↔
      ∀ part, ¬ Relation.TransGen (Feeds wires) part part := by
  constructor
  · intro hnone part hloop
    obtain ⟨rank, hrank⟩ := Digraph.exists_rank_of_traverse
      (blueprint.coherent_dependencies joints) (blueprint.root_mem_dependencies joints) hnone
    have hgrows : ∀ {a b}, Feeds wires a b → rank (.part a) < rank (.part b) := by
      intro a b hfeeds
      obtain ⟨vertex, hfirst, hsecond⟩ := h.linked_of_feeds hfeeds
      obtain ⟨driver, hdriver, rfl, -⟩ := hfirst.of_part
      obtain ⟨_, hpart⟩ := (h.scanned.opened driver hdriver).part
      have hroot := blueprint.hasEdge_root joints
        (.inr ⟨driver.part, (List.getElem?_eq_some_iff.mp hpart).1, rfl⟩)
      have hedge := h.hasEdge_iff.mpr (.inr hfirst)
      have hedge' := h.hasEdge_iff.mpr (.inr hsecond)
      have hpath := (Relation.ReflTransGen.single hroot).tail hedge
      exact Nat.lt_trans (hrank _ _ hedge hpath) (hrank _ _ hedge' (hpath.tail hedge'))
    have hall : ∀ {a b}, Relation.TransGen (Feeds wires) a b →
        rank (.part a) < rank (.part b) := by
      intro a b hpath
      induction hpath with
      | single hfeeds => exact hgrows hfeeds
      | tail _ hfeeds ih => exact Nat.lt_trans ih (hgrows hfeeds)
    exact Nat.lt_irrefl _ (hall hloop)
  · intro hacyclic
    by_contra hsome
    obtain ⟨vertex, hvertex⟩ := Option.ne_none_iff_exists'.mp hsome
    have hcircle := Digraph.transGen_of_traverse hvertex
    obtain ⟨_, -, hlast⟩ := Relation.TransGen.tail'_iff.mp hcircle
    obtain ⟨part, hpart⟩ :=
      Linked.exists_part (h.path_of_ne_root hcircle (h.ne_root_of_hasEdge hlast)).1
    obtain ⟨last, -, hlinked | ⟨hsame, hloop⟩⟩ := h.feeds_of_path hpart
    · obtain ⟨_, -, -, -, pin, -, hpin, -⟩ := hlinked.of_part
      exact pin.vertex_ne_part part hpin.symm
    · obtain rfl := Vertex.part.inj hsame
      exact hacyclic part hloop

/-- So the parts can be assembled if and only if no part feeds itself. -/
theorem exists_assemble_iff (h : blueprint.Jointed wires internals joints) :
    (∃ component, blueprint.assemble internals joints = .ok component) ↔
      ∀ part, ¬ Relation.TransGen (Feeds wires) part part := by
  simp only [← h.circle_eq_none_iff, assemble_eq_ok, exists_and_left, exists_eq, and_true]

end Jointed

end Blueprint

end ClockedLogic
