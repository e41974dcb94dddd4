import ClockedLogic.Proofs.Companions
import ClockedLogic.Proofs.ClockedPins

/-!
Bits above the width of a pin show nowhere. An edit stores a value as it is, and pins that share
nodes hand it on as it is. But primitives look at the bits of their pins only and wires join no
others, so two circuits of a component that get values with the same low bits go on holding the
same, and gates drive all pins alike.
-/

namespace ClockedLogic

open Component Circuit Word

/-- Two circuits of a standard component are driven by the same stimuli, but what they write to an
input needs to be alike only as far as the input is wide. After any stimuli whose last one is no
edit, all outputs and internal pins at all depths carry the same in both. -/
theorem Circuit.driven_alike {component : Component} (h : Standard component) :
    ∃ circuit, Circuit.ofComponent component = .ok circuit ∧
      ∀ stimuli stimuli' : List Stimulus,
        List.Forall₂ (Stimulus.Agree Alike component) stimuli stimuli' →
        stimuli.getLast?.all Stimulus.settles = true → ∀ path role, role ≠ .input →
        (circuit.driveAll stimuli).pinValues path role =
          (circuit.driveAll stimuli').pinValues path role := by
  obtain ⟨draft, circuit, hbegun⟩ := exists_begun true h.wellWired
  have hstart : Companions Alike true true component component (.beyond []) draft draft circuit
      circuit := .of_begun (.refl component) (fun _ => .of_eq rfl) hbegun hbegun
  refine ⟨circuit, hbegun.place_eq, fun stimuli stimuli' hstimuli hsettles path role hrole => ?_⟩
  cases hinner : component.descend? path with
  | none =>
    rw [(hbegun.intact.driveAll stimuli).pinValues_eq_nil hinner,
      (hbegun.intact.driveAll stimuli').pinValues_eq_nil hinner]
  | some inner =>
    exact hstart.driven_driveAll id hbegun.atRest hbegun.atRest hstimuli hsettles hinner hrole

/-- For example, of a register behind an inverter, when an input of one bit is set to all bits. -/
theorem Circuit.driven_alike_delay : ∃ component circuit,
    Blueprint.delay.build = .ok component ∧ Circuit.ofComponent component = .ok circuit ∧
      ∀ role, role ≠ .input →
        (circuit.driveAll [.set "in" 0xffff, .pulse]).pinValues [] role =
          (circuit.driveAll [.set "in" 1, .pulse]).pinValues [] role := by
  obtain ⟨component, hbuild, hstandard, hinputs, -⟩ := Blueprint.exists_delay
  obtain ⟨circuit, hcircuit, hsame⟩ := driven_alike hstandard
  refine ⟨component, circuit, hbuild, hcircuit,
    hsame _ _ (.cons (.set fun pin hpin => ?_) (.cons (.same rfl) .nil)) rfl []⟩
  have hfirst : component.pin? "in" = some ⟨"in", 1, .input, 0⟩ :=
    hstandard.isOrderly.pin?_eq (show component.inputs[0]? = _ by rw [hinputs]; rfl)
  obtain rfl := Option.some.inj (hfirst.symm.trans hpin)
  intro bit hbit
  obtain rfl : bit = 0 := Nat.lt_one_iff.mp hbit
  rfl

end ClockedLogic
