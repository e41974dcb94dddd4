import ClockedLogic.Proofs.Acceptance
import Mathlib.Data.List.Perm.Basic
import Mathlib.Logic.Equiv.Basic

/-!
Blueprints that differ in the order of their parts and of the wires of each part. A part is known by
its position, so another order gives it another number; apart from this the wires are the same. No
rule on wires looks at their order or at the numbers of parts, so both blueprints are legal or
neither is.
-/

namespace ClockedLogic

/-- The elements of a list keep their company when the list is put in another order: each of them
has a new position. -/
theorem exists_place {α : Type} {first second : List α} (h : first.Perm second) (start : Nat) :
    ∃ place : Equiv.Perm Nat, (∀ position < start, place position = position) ∧
      ((first.zipIdx start).map (Prod.map id place)).Perm (second.zipIdx start) := by
  induction h generalizing start with
  | nil => exact ⟨.refl _, fun _ _ => rfl, .nil⟩
  | @cons a _ _ _ ih =>
    obtain ⟨place, hfixed, hperm⟩ := ih (start + 1)
    refine ⟨place, fun position hlt => hfixed position (by omega), ?_⟩
    rw [List.zipIdx_cons, List.zipIdx_cons, List.map_cons, Prod.map_apply,
      hfixed start (Nat.lt_succ_self start)]
    exact hperm.cons _
  | swap a b rest =>
    have hrest : (rest.zipIdx (start + 1 + 1)).map
        (Prod.map id (Equiv.swap start (start + 1))) = rest.zipIdx (start + 1 + 1) := by
      refine (List.map_congr_left fun entry hentry => ?_).trans (List.map_id _)
      have hle := (List.mem_zipIdx hentry).1
      rw [Prod.map, Equiv.swap_apply_of_ne_of_ne (by omega) (by omega)]
      rfl
    refine ⟨.swap start (start + 1), fun position hlt =>
      Equiv.swap_apply_of_ne_of_ne (by omega) (by omega), ?_⟩
    simp only [List.zipIdx_cons, List.map_cons, Prod.map_apply, Equiv.swap_apply_left,
      Equiv.swap_apply_right, hrest]
    exact .swap _ _ _
  | trans _ _ ih ih' =>
    obtain ⟨place, hfixed, hperm⟩ := ih start
    obtain ⟨place', hfixed', hperm'⟩ := ih' start
    refine ⟨place.trans place', fun position hlt => ?_, ?_⟩
    · rw [Equiv.trans_apply, hfixed position hlt, hfixed' position hlt]
    · have hboth := (hperm.map (Prod.map id place')).trans hperm'
      rwa [List.map_map] at hboth

/-- What stands at a position stands at its new position afterwards. -/
theorem getElem?_place {α : Type} {first second : List α} {place : Equiv.Perm Nat}
    (h : (first.zipIdx.map (Prod.map id place)).Perm second.zipIdx) (position : Nat) :
    second[place position]? = first[position]? := by
  refine Option.ext fun a => ?_
  have hback : (a, place position) ∈ first.zipIdx.map (Prod.map id place) ↔
      (a, position) ∈ first.zipIdx := by
    rw [List.mem_map]
    constructor
    · rintro ⟨⟨b, found⟩, hfound, hsame⟩
      obtain ⟨rfl, hplace⟩ := Prod.mk.inj hsame
      rwa [← place.injective hplace]
    · exact fun hmem => ⟨_, hmem, rfl⟩
  rw [h.mem_iff, List.mem_zipIdx_iff_getElem?, List.mem_zipIdx_iff_getElem?] at hback
  exact hback

def OpenWire.moved (place : Nat → Nat) (wire : OpenWire) : OpenWire :=
  { wire with part := place wire.part }

/-- Two wires clash if they do after moving. -/
theorem OpenWire.Clash.of_moved {place : Equiv.Perm Nat} {a b : OpenWire}
    (h : (a.moved place).Clash (b.moved place)) : a.Clash b := by
  cases h with
  | input hinput hpart hpin hbit hbit' =>
    exact .input hinput (place.injective hpart) hpin hbit hbit'
  | owner houtput houtput' howner howner' hbit hbit' =>
    exact .owner houtput houtput' howner howner' hbit hbit'

namespace Blueprint

structure SameDeclarations (blueprint other : Blueprint) : Prop where
  name : other.name = blueprint.name
  inputs : other.inputs = blueprint.inputs
  outputs : other.outputs = blueprint.outputs
  clocked : other.clocked = blueprint.clocked
  chip : other.chip = blueprint.chip

/-- Whether two blueprints differ at most in the order of their parts and of the wires of each
part. -/
structure Reorders (blueprint other : Blueprint) : Prop
    extends blueprint.SameDeclarations other where
  parts : ∃ sorted, blueprint.parts.Perm sorted ∧
    List.Forall₂ (fun part changed => part.1 = changed.1 ∧ part.2.Perm changed.2) sorted other.parts

/-- Whether the parts of a blueprint stand at new positions in another one, with their wires in
whatever order. -/
structure Renumbers (place : Equiv.Perm Nat) (blueprint other : Blueprint) : Prop
    extends blueprint.SameDeclarations other where
  components : ∀ position, (other.parts[place position]?).map Prod.fst =
    (blueprint.parts[position]?).map Prod.fst
  texts : (blueprint.wireTexts.map (Prod.map place id)).Perm other.wireTexts

def textsAt (entry : (Component × List (String × String)) × Nat) :
    List (Nat × Component × (String × String)) :=
  entry.1.2.map fun references => (entry.2, entry.1.1, references)

/-- Wires in any order. -/
theorem perm_textsAt {first second : List (Component × List (String × String))}
    (h : List.Forall₂ (fun part changed => part.1 = changed.1 ∧ part.2.Perm changed.2) first second)
    (start : Nat) :
    ((first.zipIdx start).flatMap textsAt).Perm ((second.zipIdx start).flatMap textsAt) := by
  induction h generalizing start with
  | nil => exact .nil
  | cons hpart _ ih =>
    rw [List.zipIdx_cons, List.zipIdx_cons, List.flatMap_cons, List.flatMap_cons, textsAt, textsAt,
      hpart.1]
    exact (hpart.2.map _).append (ih (start + 1))

variable {blueprint other : Blueprint} {place : Equiv.Perm Nat} {wires wires' : List OpenWire}

/-- Parts in any order with wires in any order. -/
theorem Reorders.exists_renumbers (h : blueprint.Reorders other) :
    ∃ place, blueprint.Renumbers place other := by
  obtain ⟨sorted, hsorted, hsame⟩ := h.parts
  obtain ⟨place, -, hplace⟩ := exists_place hsorted 0
  refine ⟨place, h.toSameDeclarations, fun position => ?_, ?_⟩
  · have hcomponents : sorted.map Prod.fst = other.parts.map Prod.fst := by
      rw [← List.forall₂_eq_eq_eq, List.forall₂_map_left_iff, List.forall₂_map_right_iff]
      exact hsame.imp fun _ _ hpart => hpart.1
    rw [← getElem?_place hplace, ← List.getElem?_map, ← List.getElem?_map, hcomponents]
  · have hmoved : blueprint.wireTexts.map (Prod.map place id) =
        (blueprint.parts.zipIdx.map (Prod.map id place)).flatMap textsAt := by
      rw [List.flatMap_map]
      refine (List.map_flatMap ..).trans (List.flatMap_congr fun entry _ => ?_)
      exact List.map_map ..
    rw [hmoved]
    exact (hplace.flatMap_right _).trans (perm_textsAt hsame 0)

namespace SameDeclarations

theorem symm (h : blueprint.SameDeclarations other) : other.SameDeclarations blueprint :=
  ⟨h.name.symm, h.inputs.symm, h.outputs.symm, h.clocked.symm, h.chip.symm⟩

theorem declaredNames_eq (h : blueprint.SameDeclarations other) :
    other.declaredNames = blueprint.declaredNames := by
  rw [declaredNames, declaredNames, h.inputs, h.outputs]

theorem inputPins_eq (h : blueprint.SameDeclarations other) :
    other.inputPins = blueprint.inputPins := by rw [inputPins, inputPins, h.inputs]

theorem outputPins_eq (h : blueprint.SameDeclarations other) :
    other.outputPins = blueprint.outputPins := by rw [outputPins, outputPins, h.outputs]

theorem declaredPins_eq (h : blueprint.SameDeclarations other) :
    other.declaredPins = blueprint.declaredPins := by
  rw [declaredPins, declaredPins, h.inputPins_eq, h.outputPins_eq]

theorem isDeclaredClocked_eq (h : blueprint.SameDeclarations other) :
    other.isDeclaredClocked = blueprint.isDeclaredClocked := by
  funext pin
  rw [isDeclaredClocked, isDeclaredClocked, h.clocked]

theorem interface_eq (h : blueprint.SameDeclarations other) :
    other.interface = blueprint.interface := by
  funext isClocked isInferred
  simp only [interface, h.isDeclaredClocked_eq, h.name, h.inputPins_eq, h.outputPins_eq]

end SameDeclarations

namespace Renumbers

theorem symm (h : blueprint.Renumbers place other) : other.Renumbers place.symm blueprint where
  toSameDeclarations := h.toSameDeclarations.symm
  components position := by
    rw [← h.components, place.apply_symm_apply]
  texts := by
    have hback := h.texts.symm.map (Prod.map place.symm id)
    rwa [List.map_map, Prod.map_comp_map, place.symm_comp_self, Function.comp_id, Prod.map_id,
      List.map_id] at hback

/-- The wires are read alike, apart from the numbers of their parts. -/
theorem exists_reads (h : blueprint.Renumbers place other)
    (hreads : List.Forall₂ (fun text wire => OpenWire.Reads wire text) blueprint.wireTexts wires) :
    ∃ wires', List.Forall₂ (fun text wire => OpenWire.Reads wire text) other.wireTexts wires' ∧
      (wires.map (OpenWire.moved place)).Perm wires' := by
  have hmoved : List.Forall₂ (fun text wire => OpenWire.Reads wire text)
      (blueprint.wireTexts.map (Prod.map place id)) (wires.map (OpenWire.moved place)) := by
    rw [List.forall₂_map_left_iff, List.forall₂_map_right_iff]
    exact hreads.imp fun text wire hread => ⟨congrArg place hread.part, hread.component, hread.pin,
      hread.near, hread.far⟩
  obtain ⟨wires', hreads', hperm⟩ := List.perm_comp_forall₂ h.texts.symm hmoved
  exact ⟨wires', hreads', hperm.symm⟩

end Renumbers

structure Rewires (place : Equiv.Perm Nat) (blueprint other : Blueprint)
    (wires wires' : List OpenWire) : Prop extends blueprint.Renumbers place other where
  moved : (wires.map (OpenWire.moved place)).Perm wires'

namespace Rewires

variable (h : blueprint.Rewires place other wires wires')

include h

theorem symm : other.Rewires place.symm blueprint wires' wires where
  toRenumbers := h.toRenumbers.symm
  moved := by
    have hback := h.moved.symm.map (OpenWire.moved place.symm)
    have hsame : OpenWire.moved place.symm ∘ OpenWire.moved place = id := by
      funext wire
      simp [OpenWire.moved]
    rwa [List.map_map, hsame, List.map_id] at hback

theorem mem {wire : OpenWire} (hwire : wire ∈ wires) : wire.moved place ∈ wires' :=
  h.moved.mem_iff.mp (List.mem_map_of_mem hwire)

theorem exists_of_mem {wire : OpenWire} (hwire : wire ∈ wires') :
    ∃ original ∈ wires, original.moved place = wire :=
  List.mem_map.mp (h.moved.mem_iff.mpr hwire)

theorem offers {role : PinRole} {name : String} {width : Nat}
    (hoffers : blueprint.Offers wires role name width) : other.Offers wires' role name width := by
  cases hoffers with
  | input hmem => exact .input (h.inputs ▸ hmem)
  | output hmem => exact .output (h.outputs ▸ hmem)
  | @internal wire _ hwire hdriver howner hnew =>
    exact @Offers.internal other wires' (wire.moved place) _ (h.mem hwire) hdriver howner
      (h.declaredNames_eq ▸ hnew)

/-- Where a part feeds another one it does so at their new positions. -/
theorem feeds {part reader : Nat} (hfeeds : Feeds wires part reader) :
    Feeds wires' (place part) (place reader) := by
  cases hfeeds with
  | intro hdriver hreader houtput hinput hclocked howner howner' =>
    exact .intro (h.mem hdriver) (h.mem hreader) houtput hinput hclocked howner howner'

theorem legalWires (hlegal : blueprint.LegalWires wires) : other.LegalWires wires' where
  sources wire hwire hinput := by
    obtain ⟨original, horiginal, rfl⟩ := h.exists_of_mem hwire
    cases hlegal.sources original horiginal hinput with
    | ones howner => exact .ones howner
    | zeros howner => exact .zeros howner
    | pin howner hoffers hrole hmatches => exact .pin howner (h.offers hoffers) hrole hmatches
  targets wire hwire houtput := by
    obtain ⟨original, horiginal, rfl⟩ := h.exists_of_mem hwire
    cases hlegal.targets original horiginal houtput with
    | output howner hdeclared hmatches =>
      exact .output howner (h.outputs ▸ hdeclared) hmatches
    | internal howner hnew => exact .internal howner (h.declaredNames_eq ▸ hnew)
  apart := by
    refine (h.moved.pairwise_iff fun hab hba => hab hba.symm).mp (List.pairwise_map.mpr ?_)
    exact hlegal.apart.imp fun hapart hclash => hapart hclash.of_moved
  acyclic part hloop := hlegal.acyclic (place.symm part)
    (hloop.lift place.symm fun _ _ hfeeds => h.symm.feeds hfeeds)

end Rewires

theorem Renumbers.legal (h : blueprint.Renumbers place other) (hchip : blueprint.chip = none)
    (hlegal : blueprint.Legal) : other.Legal where
  declarations := by
    obtain ⟨hnames, hwidths, hdistinct, hclocked⟩ := hlegal.declarations
    refine ⟨?_, ?_, ?_, ?_⟩
    · rwa [h.inputs, h.outputs]
    · rwa [h.inputs, h.outputs]
    · rwa [h.declaredNames_eq]
    · rwa [h.clocked, h.declaredNames_eq]
  chip hsome := by
    rw [h.chip, hchip] at hsome
    cases hsome
  wiring _ := by
    obtain ⟨wires, hreads, hwires⟩ := hlegal.wiring hchip
    obtain ⟨wires', hreads', hmoved⟩ := h.exists_reads hreads
    exact ⟨wires', hreads', Rewires.legalWires ⟨h, hmoved⟩ hwires⟩

end Blueprint
end ClockedLogic
