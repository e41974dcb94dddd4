import ClockedLogic.Proofs.Settling
import Mathlib.Logic.Relation

/-!
Combinational loops. Components are checked one by one, and only for circles among their own parts;
still no signal in a circuit comes back to a built in gate without passing a clocked input. On the
way through nodes and links the level never falls, and every built in gate raises it from its
inputs that are not clocked.
-/

namespace ClockedLogic

namespace Netlist

/-- Whether a node is copied to another by links, one after the other. -/
def Flows (netlist : Netlist) : Nat → Nat → Prop :=
  Relation.ReflTransGen fun source target =>
    ∃ link, netlist.Leads source link ∧ link.target = target

/-- Whether an output of a gate supplies an input of another that is not clocked, through nodes that
they share and through links only. -/
def Supplies (netlist : Netlist) (gate other : Gate) : Prop :=
  ∃ output ∈ gate.outputs, ∃ (position input : Nat), other.inputs[position]? = some input ∧
    other.component.isInputClocked position = false ∧ netlist.Flows output input

variable {root : Gate} {netlist : Netlist} {level : Nat → Nat}

theorem Flows.level_le (hlevel : Leveled root netlist level) {source target : Nat}
    (h : netlist.Flows source target) : level source ≤ level target := by
  induction h with
  | refl => exact Nat.le_refl _
  | tail _ hlink ih =>
    obtain ⟨link, hleads, rfl⟩ := hlink
    exact Nat.le_trans ih (Nat.le_of_lt (hlevel.links _ link hleads))

end Netlist

def Circuit.Supplies (circuit : Circuit) (gate other : Gate) : Prop :=
  (∃ site spec, gate = .builtIn site spec) ∧ (∃ site spec, other = .builtIn site spec) ∧
    gate ∈ circuit.root.all ∧ other ∈ circuit.root.all ∧ circuit.netlist.Supplies gate other

variable {draft : Draft} {circuit : Circuit} {level : Nat → Nat}

/-- The outputs of a built in gate lie above some output of each gate that supplies it. -/
theorem Circuit.Supplies.level_lt (fabric : Fabric circuit.root draft)
    (hlevel : Leveled circuit.root circuit.netlist level) {gate other : Gate}
    (h : circuit.Supplies gate other) :
    ∃ output ∈ gate.outputs, ∀ later ∈ other.outputs, level output < level later := by
  obtain ⟨-, ⟨site, spec, rfl⟩, -, hother, output, houtput, position, input, hinput, hclocked,
    hflows⟩ := h
  obtain ⟨kind, rfl, hcomponent, -⟩ := fabric.builtIns site spec hother
  refine ⟨output, houtput, fun later hlater => ?_⟩
  have hfree : kind.component.isInputClocked position = false := by
    rw [← hcomponent]
    exact hclocked
  exact Nat.lt_of_le_of_lt (hflows.level_le hlevel)
    (hlevel.gates site kind hother position input hinput hfree later hlater)

/-- So they do if it is supplied through other built in gates. -/
theorem Circuit.level_lt_of_transGen (fabric : Fabric circuit.root draft)
    (hlevel : Leveled circuit.root circuit.netlist level) {gate other : Gate}
    (h : Relation.TransGen circuit.Supplies gate other) :
    ∃ output ∈ gate.outputs, ∀ later ∈ other.outputs, level output < level later := by
  induction h with
  | single hsupplies => exact hsupplies.level_lt fabric hlevel
  | tail _ hsupplies ih =>
    obtain ⟨output, houtput, hbelow⟩ := ih
    obtain ⟨middle, hmiddle, hnext⟩ := hsupplies.level_lt fabric hlevel
    exact ⟨output, houtput, fun later hlater =>
      Nat.lt_trans (hbelow middle hmiddle) (hnext later hlater)⟩

/-- The circuit of a standard component has no combinational loop: no built in gate supplies itself,
be it directly or through other built in gates at any depths. -/
theorem Circuit.no_combinational_loop {component : Component} (h : Standard component) :
    ∃ circuit, Circuit.ofComponent component = .ok circuit ∧
      ∀ gate, ¬ Relation.TransGen circuit.Supplies gate gate := by
  obtain ⟨draft, _, circuit, hstarted⟩ := Circuit.exists_started h
  obtain ⟨level, hlevel⟩ := hstarted.ready.fabric.levels
  rw [← hstarted.ready.netlist_eq] at hlevel
  refine ⟨circuit, hstarted.ofComponent_eq, fun gate hloop => ?_⟩
  obtain ⟨output, houtput, hbelow⟩ :=
    Circuit.level_lt_of_transGen hstarted.ready.fabric hlevel hloop
  exact Nat.lt_irrefl _ (hbelow output houtput)

/-- For example, the feedback of a toggler passes a clocked input. -/
theorem Circuit.no_combinational_loop_toggler : ∃ component circuit,
    Blueprint.toggler.build = .ok component ∧ Circuit.ofComponent component = .ok circuit ∧
    ∀ gate, ¬ Relation.TransGen circuit.Supplies gate gate := by
  obtain ⟨component, hbuild, hstandard⟩ := Blueprint.exists_toggler
  obtain ⟨circuit, hcircuit, hloops⟩ := Circuit.no_combinational_loop hstandard
  exact ⟨component, circuit, hbuild, hcircuit, hloops⟩

end ClockedLogic
