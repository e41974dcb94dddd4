import ClockedLogic.Proofs.LinkOrder
import ClockedLogic.Proofs.Settling
import ClockedLogic.Proofs.SingleEdges

/-!
Wires agree in every state that a circuit can reach, between any two operations on its gates. The
values of its nodes always follow the links and constants that placing its component has made, so
whatever holds of such values holds of the circuit.
-/

namespace ClockedLogic

/-- Whether the wires of a composite gate carry the same bits at both ends, and nothing else sets
a bit of an input of a part or of an output. -/
structure Gate.WiresAgree (value : Nat → Word) (owner : Gate) : Prop where
  parts : owner.parts.map Gate.component = owner.component.parts.map (·.component)
  wires : ∀ (position : Nat) (part : Part Component) (gate : Gate),
    owner.component.parts[position]? = some part → owner.parts[position]? = some gate →
    ∀ wire ∈ part.wires, wire.Agrees value owner gate
  inputs : ∀ (position : Nat) (part : Part Component) (gate : Gate),
    owner.component.parts[position]? = some part → owner.parts[position]? = some gate →
    ∀ (index : Nat) (pin : Pin), part.component.inputs[index]? = some pin →
    ∃ node, gate.inputs[index]? = some node ∧ ∀ bit < pin.width,
      (∀ wire ∈ part.wires, wire.partRole = .input → wire.partIndex = index →
        ¬ (pin.spanOf wire.partBits).Covers bit) → (value node).getLsbD bit = false
  outputs : ∀ (index : Nat) (pin : Pin), owner.component.outputs[index]? = some pin →
    ∃ node, owner.outputs[index]? = some node ∧ ∀ bit < pin.width,
      (∀ part ∈ owner.component.parts, ∀ wire ∈ part.wires, wire.partRole = .output →
        wire.owner = .pin .output index → ¬ (pin.spanOf wire.ownerBits).Covers bit) →
      (value node).getLsbD bit = false

namespace Component

variable {sharing : Bool} {component : Component} {width : Nat → Nat} {draft : Draft}
  {state : State}

theorem Rendered.carried (h : Rendered sharing component width draft)
    (hsane : Sane (component.rootPlaced sharing).result draft state) :
    Carried (component.rootPlaced sharing).Has
      (· ∈ (component.rootPlaced sharing).result.inputs) width state.value where
  link source bits target targetBits hlink position hposition := by
    have hcovers : (spanAt width target targetBits).Covers
        ((spanAt width target targetBits).low + position) :=
      BitSpan.covers_iff_exists.mpr ⟨position, hposition, rfl⟩
    have hholds := hsane.holds source _ (h.leads_iff.mpr ⟨bits, target, targetBits, hlink, rfl⟩) _
      hcovers
    rwa [Link.sourceBit, Nat.add_sub_cancel_left] at hholds
  raise node bits hraise bit hcovers := by
    have hone := (h.value_iff node bit).mpr ⟨bits, hraise, hcovers⟩
    obtain ⟨hcopied, hsets⟩ := h.ones_apart hone
    exact (hsane.rest node bit hcopied hsets).trans hone
  rest node bit hentry hdrivers := by
    have hcopied : ¬ draft.netlist.IsCopied node bit := by
      intro hexists
      obtain ⟨source, link, hlink, rfl, hcovers⟩ := hexists
      obtain ⟨bits, targetBits, hhas, hbit, -⟩ := h.drivesBit_of_leads hlink hcovers
      exact hdrivers _ hhas hbit
    have hsets : ¬ (component.rootPlaced sharing).result.Sets node := by
      intro hsets
      rcases has_of_sets hsets with hinput | ⟨gate, hgate, -, hall⟩
      · exact hentry hinput
      · exact hdrivers _ hgate (hall width bit)
    refine (hsane.rest node bit hcopied hsets).trans (Bool.eq_false_iff.mpr fun hone => ?_)
    obtain ⟨bits, hhas, hcovers⟩ := (h.value_iff node bit).mp hone
    exact hdrivers _ hhas ⟨rfl, hcovers⟩

end Component

open Component

section Composite

variable {drivers : Driver → Prop} {entries : Nat → Prop} {sharing : Bool} {interface : Interface}
  {internals : List Pin} {parts : List (Part Component)} {dependencies : Digraph Vertex}
  {inputs outputs : List Nat} {cursor : Cursor} {width : Nat → Nat} {value : Nat → Word}
  {bound : Nat}

theorem Spot.wiresAgree (h : Spot drivers entries sharing
      (.composite interface internals parts dependencies) inputs outputs cursor)
    (hhoused : ∀ gate ∈ (place sharing (.composite interface internals parts dependencies) inputs
      outputs cursor).result.all, Housed width bound gate)
    (hcarried : Carried drivers entries width value) :
    (place sharing (.composite interface internals parts dependencies) inputs outputs
      cursor).result.WiresAgree value := by
  have hcomponent := (isPlaced sharing (.composite interface internals parts dependencies) inputs
    outputs cursor).component_eq
  have hparts := @part_innerParts sharing internals parts inputs outputs cursor
  have hgates := @parts_place_composite sharing interface internals parts dependencies inputs
    outputs cursor
  refine ⟨?_, ?_, ?_, ?_⟩
  · rw [hcomponent, hgates]
    have hsame := congrArg (List.map (·.component)) hparts
    rw [List.map_map] at hsame
    rw [List.map_map]
    refine Eq.trans (List.map_congr_left fun placed hmem => ?_) hsame
    exact (mem_placeEach hmem).2.1.isPlaced.component_eq
  · intro position part gate hpart hgate wire hwire
    rw [hcomponent] at hpart
    obtain ⟨placed, hmem, rfl, hplaced⟩ := exists_placed hpart
    obtain rfl := Option.some.inj (hplaced.symm.trans hgate)
    exact h.agrees hhoused hcarried hmem hwire
  · intro position part gate hpart hgate index pin hpin
    rw [hcomponent] at hpart
    obtain ⟨placed, hmem, rfl, hplaced⟩ := exists_placed hpart
    obtain rfl := Option.some.inj (hplaced.symm.trans hgate)
    have hexists := h.exists_node hhoused hmem (show PinRole.input ≠ .internal by simp) hpin
    obtain ⟨-, -, -, -, node, hnode, -⟩ := hexists
    refine ⟨node, hnode, fun bit hlt hidle => ?_⟩
    exact h.bit_input_eq_false hhoused hcarried hmem hpin hnode hlt
      fun wire hwire hrole hindex hcovers => absurd hcovers (hidle wire hwire hrole hindex)
  · intro index pin hpin
    rw [hcomponent] at hpin
    obtain ⟨-, -, node, hscope, hnode, -⟩ := h.exists_node_owner hhoused
      (show (Component.pinsOf _ .output)[index]? = some pin from hpin)
    refine ⟨node, hnode, fun bit hlt hidle => ?_⟩
    rw [hcomponent] at hidle
    exact h.bit_driven_eq_false hhoused hcarried (show PinRole.output ≠ .input by simp) hpin hscope
      hlt hidle

end Composite

/-- After any operations on the circuit of a standard component, the wires of all its composite
gates agree. -/
theorem Circuit.wires_agree {component : Component} (h : Standard component) :
    ∃ circuit, Circuit.ofComponent component = .ok circuit ∧ ∀ operations : List Operation,
      let now := circuit.operateAll operations
      ∀ site internals gates, .composite site internals gates ∈ now.root.all →
        (Gate.composite site internals gates).WiresAgree now.value := by
  obtain ⟨draft, initial, hmade⟩ := exists_made true h.wellWired
  obtain ⟨width, hdrafted⟩ := hmade.exists_drafted h.wellWired
  refine ⟨_, hmade.place_eq, fun operations => ?_⟩
  have hrunning := hmade.ready_place.running.operateAll operations
  have hcarried := hdrafted.rendered.carried hrunning.steady.sane
  intro now site internals gates hgate
  rw [hrunning.root_eq] at hgate
  obtain ⟨inner, inputs, outputs, cursor, hspot, hmadeHere⟩ :=
    (spot_rootPlaced true h.wellWired.fitted).exists_of_mem hgate
  have hinside : ∀ gate ∈ (inner.place true inputs outputs cursor).result.all,
      Housed width draft.size gate := by
    intro gate hinner
    rw [← hmadeHere] at hinner
    exact hdrafted.housed gate (Gate.mem_all_trans hinner hgate)
  cases inner with
  | builtIn interface chip =>
    rw [Component.place] at hmadeHere
    cases hmadeHere
  | composite interface pins parts dependencies =>
    rw [hmadeHere]
    exact hspot.wiresAgree hinside hcarried

/-- For example, those of a toggler whose flip-flop has been clocked on its own. -/
theorem Circuit.wires_agree_toggler :
    ∃ component circuit, Blueprint.toggler.build = .ok component ∧
      Circuit.ofComponent component = .ok circuit ∧
      let now := circuit.operateAll [.tickGate [0], .tockGate [0]]
      ∀ site internals gates, .composite site internals gates ∈ now.root.all →
        (Gate.composite site internals gates).WiresAgree now.value := by
  obtain ⟨component, hbuild, hstandard⟩ := Blueprint.exists_toggler
  obtain ⟨circuit, hcircuit, hagree⟩ := wires_agree hstandard
  exact ⟨component, circuit, hbuild, hcircuit, hagree _⟩

end ClockedLogic
