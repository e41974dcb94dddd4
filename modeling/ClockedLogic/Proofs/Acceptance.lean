import ClockedLogic.Proofs.PartLoops

/-!
Building accepts the legal blueprints and no others. Each pass refuses what breaks one of its rules
and hands on what the next pass needs, so that all of them succeed just where all rules are kept.
-/

namespace ClockedLogic

namespace Blueprint

variable {blueprint : Blueprint}

theorem inputs_of_buildComposite {component : Component}
    (h : blueprint.buildComposite = .ok component) :
    component.inputs = blueprint.inputPins ∧ component.outputs = blueprint.outputPins := by
  obtain ⟨wires, -, h⟩ := except_bind_eq_ok.mp h
  obtain ⟨internals, -, h⟩ := except_bind_eq_ok.mp h
  obtain ⟨joints, -, h⟩ := except_bind_eq_ok.mp h
  obtain ⟨-, rfl⟩ := assemble_eq_ok.mp h
  exact ⟨rfl, rfl⟩

/-- Whatever has been built has the declared pins. -/
theorem pins_of_build {component : Component} (h : blueprint.build = .ok component) :
    component.inputs = blueprint.inputPins ∧ component.outputs = blueprint.outputPins := by
  unfold build at h
  obtain ⟨-, h⟩ := except_check_eq_ok.mp h
  split at h
  · split at h
    · cases h
      exact ⟨rfl, rfl⟩
    · cases h
  · exact inputs_of_buildComposite h

theorem declarations_of_build {component : Component} (h : blueprint.build = .ok component) :
    blueprint.LegalDeclarations := by
  unfold build at h
  exact checkDeclarations_eq_ok.mp (except_check_eq_ok.mp h).1

/-- The pins of what has been built stand in their order and have different names. -/
theorem isOrderly_of_build {component : Component} (h : blueprint.build = .ok component) :
    component.IsOrderly := by
  have hdeclared := declarations_of_build h
  have hpins := pins_of_build h
  refine ⟨?_, ?_, ?_⟩
  · rw [hpins.1]
    exact pinsInOrder_ofDeclarations fun declaration hmem =>
      hdeclared.widths declaration (List.mem_append_left _ hmem)
  · rw [hpins.2]
    exact pinsInOrder_ofDeclarations fun declaration hmem =>
      hdeclared.widths declaration (List.mem_append_right _ hmem)
  · rw [hpins.1, hpins.2]
    show (blueprint.declaredPins.map Pin.name).Nodup
    rw [map_name_declaredPins]
    exact hdeclared.distinct

end Blueprint

def Primitive.blueprint (kind : Primitive) : Blueprint where
  name := kind.name
  inputs := kind.inputs
  outputs := kind.outputs
  clocked := kind.clocked
  parts := []
  chip := some (.primitive kind)

/-- Standard primitives could have been built as well. -/
theorem Primitive.build_blueprint (kind : Primitive) :
    kind.blueprint.build = .ok kind.component := by
  have hcheck : kind.blueprint.checkDeclarations = .ok () := by
    cases kind <;> rfl
  have hsame : kind.blueprint.buildBuiltIn (.primitive kind) = kind.component := by
    cases kind <;> rfl
  exact except_check_eq_ok.mpr ⟨hcheck, congrArg _ hsame⟩

theorem Standard.isOrderly {component : Component} (h : Standard component) :
    component.IsOrderly := by
  cases h with
  | primitive kind => exact Blueprint.isOrderly_of_build kind.build_blueprint
  | composite _ _ _ hbuild => exact Blueprint.isOrderly_of_build hbuild

namespace Blueprint

variable {blueprint : Blueprint}

theorem scanned {wires : List OpenWire} {internals : List Pin}
    (hdeclared : blueprint.LegalDeclarations)
    (horderly : ∀ part ∈ blueprint.parts, part.1.IsOrderly)
    (hwires : openWires blueprint.name blueprint.wireTexts = .ok wires)
    (hinternals : findInternals blueprint.name blueprint.declaredPins [] wires = .ok internals) :
    blueprint.Scanned wires internals := by
  have hopened := opened_of_openWires hwires
  have hnodup : ((blueprint.declaredPins ++ []).map Pin.name).Nodup := by
    rw [List.append_nil, map_name_declaredPins]
    exact hdeclared.distinct
  refine ⟨hdeclared, horderly, hopened, found_of_findInternals hnodup hinternals,
    pinsInOrder_pinsOf hdeclared (fun wire hwire => ?_) hinternals⟩
  obtain ⟨_, hpart⟩ := (hopened wire hwire).part
  have hpins := horderly _ (List.mem_of_getElem? hpart)
  exact (hopened wire hwire).width_mem hpins.inputs hpins.outputs

/-- Wires are read in just one way. -/
theorem openWires_iff_reads {owner : String} {wires : List OpenWire}
    (horderly : ∀ part ∈ blueprint.parts, part.1.IsOrderly) :
    openWires owner blueprint.wireTexts = .ok wires ↔
      List.Forall₂ (fun text wire => OpenWire.Reads wire text) blueprint.wireTexts wires := by
  rw [openWires_eq_ok]
  constructor
  · exact List.Forall₂.imp fun _ _ h => reads_of_openWire h
  · intro h
    have hnames : ∀ text ∈ blueprint.wireTexts,
        ((text.2.1.inputs ++ text.2.1.outputs).map Pin.name).Nodup := by
      intro text htext
      obtain ⟨_, hpart⟩ := mem_wireTexts htext
      exact (horderly _ (List.mem_of_getElem? hpart)).names
    exact ((List.forall₂_and_left _ _).mpr ⟨hnames, h⟩).imp fun _ _ hboth =>
      openWire_of_reads hboth.2 hboth.1

/-- Scanned wires can be joined and assembled if and only if they are legal. -/
theorem Scanned.exists_assemble_iff {wires : List OpenWire} {internals : List Pin}
    (h : blueprint.Scanned wires internals) :
    (∃ joints component,
      joinWires blueprint.name (blueprint.declaredPins ++ internals) [] wires = .ok joints ∧
      blueprint.assemble internals joints = .ok component) ↔ blueprint.LegalWires wires := by
  constructor
  · rintro ⟨joints, component, hjoints, hassemble⟩
    obtain ⟨_, rfl, hjoined, hapart⟩ := (joinWires_eq_ok .nil).mp hjoints
    have hjoints := hjoined.imp fun _ _ hjoin => OpenWire.joined_of_join hjoin
    have hjointed : blueprint.Jointed wires internals _ := ⟨h, hjoints⟩
    refine ⟨fun wire hwire hinput => ?_, fun wire hwire houtput => ?_,
      (h.apart_iff hjoints).mp hapart, hjointed.exists_assemble_iff.mp ⟨component, hassemble⟩⟩
    · obtain ⟨joint, -, hjoint⟩ := exists_of_forall₂ hjoints.flip hwire
      exact h.legalSource hinput hjoint
    · obtain ⟨joint, -, hjoint⟩ := exists_of_forall₂ hjoints.flip hwire
      exact h.legalTarget houtput hjoint
  · intro hlegal
    obtain ⟨joints, hjoints⟩ := exists_forall₂ fun wire hwire => h.exists_joined hlegal hwire
    have hjointed : blueprint.Jointed wires internals joints := ⟨h, hjoints⟩
    obtain ⟨component, hassemble⟩ := hjointed.exists_assemble_iff.mpr hlegal.acyclic
    refine ⟨joints, component, (joinWires_eq_ok .nil).mpr ⟨joints, rfl, ?_,
      (h.apart_iff hjoints).mpr hlegal.apart⟩, hassemble⟩
    exact hjoints.imp fun _ _ hjoined => OpenWire.join_of_joined h.found.nodup hjoined

theorem legal_of_build {component : Component}
    (horderly : ∀ part ∈ blueprint.parts, part.1.IsOrderly)
    (hbuild : blueprint.build = .ok component) : blueprint.Legal := by
  have hdeclared := declarations_of_build hbuild
  refine ⟨hdeclared, fun hchip => ?_, fun hchip => ?_⟩
  · obtain ⟨chip, hchip⟩ := Option.isSome_iff_exists.mp hchip
    exact (build_chip_eq_ok hchip hbuild).2.1
  · obtain ⟨-, wires, internals, joints, hwires, hinternals, hjoints, hassemble⟩ :=
      build_eq_ok hchip hbuild
    have hscanned := scanned hdeclared horderly hwires hinternals
    exact ⟨wires, (openWires_iff_reads horderly).mp hwires,
      hscanned.exists_assemble_iff.mp ⟨joints, component, hjoints, hassemble⟩⟩

/-- Legal wires have all their internal pins found: they drive declared pins, or new ones as a
whole. -/
theorem LegalWires.exists_findInternals {wires : List OpenWire} (h : blueprint.LegalWires wires) :
    ∃ internals, findInternals blueprint.name blueprint.declaredPins [] wires = .ok internals := by
  refine Blueprint.exists_findInternals fun wire hwire houtput name bits howner => ?_
  cases h.targets wire hwire houtput with
  | output hfar hdeclared =>
    rw [howner] at hfar
    obtain ⟨rfl, -⟩ := BusReference.pin.inj hfar
    rw [map_name_declaredPins]
    exact .inl (List.mem_map_of_mem (List.mem_append_right _ hdeclared))
  | internal hfar =>
    rw [howner] at hfar
    exact .inr (BusReference.pin.inj hfar).2

theorem Legal.exists_build (hlegal : blueprint.Legal)
    (horderly : ∀ part ∈ blueprint.parts, part.1.IsOrderly) :
    ∃ component, blueprint.build = .ok component := by
  have hcheck := checkDeclarations_eq_ok.mpr hlegal.declarations
  cases hchip : blueprint.chip with
  | some chip =>
    have hempty := hlegal.chip (by rw [hchip]; rfl)
    refine ⟨blueprint.buildBuiltIn chip, ?_⟩
    unfold build
    rw [hchip, hempty]
    exact except_check_eq_ok.mpr ⟨hcheck, rfl⟩
  | none =>
    obtain ⟨wires, hreads, hwiring⟩ := hlegal.wiring hchip
    have hwires := (@openWires_iff_reads _ blueprint.name _ horderly).mpr hreads
    obtain ⟨internals, hinternals⟩ := hwiring.exists_findInternals
    obtain ⟨joints, component, hjoints, hassemble⟩ :=
      (scanned hlegal.declarations horderly hwires hinternals).exists_assemble_iff.mpr hwiring
    refine ⟨component, ?_⟩
    unfold build
    rw [hchip]
    refine except_check_eq_ok.mpr ⟨hcheck, ?_⟩
    exact except_bind_eq_ok.mpr ⟨wires, hwires, except_bind_eq_ok.mpr ⟨internals, hinternals,
      except_bind_eq_ok.mpr ⟨joints, hjoints, hassemble⟩⟩⟩

/-- A blueprint whose parts have been built is built if and only if it is legal. -/
theorem exists_build_iff_legal
    (hparts : ∀ part ∈ blueprint.parts, ∃ source : Blueprint, source.build = .ok part.1) :
    (∃ component, blueprint.build = .ok component) ↔ blueprint.Legal := by
  have horderly : ∀ part ∈ blueprint.parts, part.1.IsOrderly := by
    intro part hpart
    obtain ⟨source, hsource⟩ := hparts part hpart
    exact isOrderly_of_build hsource
  constructor
  · rintro ⟨component, hbuild⟩
    exact legal_of_build horderly hbuild
  · intro hlegal
    exact hlegal.exists_build horderly

/-- For example, a toggler is legal, and an inverter that reads what it drives is not. -/
theorem exists_build_iff_legal_toggler :
    toggler.Legal ∧
      ¬ { toggler with parts := [(Primitive.not.component, [("in", "x"), ("out", "x")])] }.Legal := by
  constructor
  · refine (exists_build_iff_legal fun part hpart => ?_).mp ?_
    · simp only [toggler, List.mem_cons, List.not_mem_nil, or_false] at hpart
      rcases hpart with rfl | rfl
      · exact ⟨_, Primitive.build_blueprint .not⟩
      · exact ⟨_, Primitive.build_blueprint .dff⟩
    · obtain ⟨component, hbuild, -⟩ := exists_toggler
      exact ⟨component, hbuild⟩
  · intro hlegal
    obtain ⟨component, hbuild⟩ := (exists_build_iff_legal fun part hpart => by
      rw [List.mem_singleton.mp hpart]
      exact ⟨_, Primitive.build_blueprint .not⟩).mpr hlegal
    have hrefused : { toggler with
        parts := [(Primitive.not.component, [("in", "x"), ("out", "x")])] }.build.isOk = false := by
      decide +kernel
    rw [hbuild] at hrefused
    cases hrefused

end Blueprint

end ClockedLogic
