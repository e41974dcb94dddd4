import ClockedLogic.Proofs.Wiring
import Mathlib.Data.List.Forall2
import Mathlib.Data.List.Nodup
import Mathlib.Data.List.Pairwise

/-!
What each pass over a blueprint accepts and what it hands on. Declarations are checked one by one,
the part side of each wire is read, names that parts drive become internal pins, and each wire is
joined to a pin that has its bits, where no two joints drive a bit together.
-/

namespace ClockedLogic

theorem except_bind_eq_ok {ε α β : Type} {first : Except ε α} {next : α → Except ε β} {result : β} :
    (first >>= next) = .ok result ↔ ∃ value, first = .ok value ∧ next value = .ok result := by
  cases first <;> simp [bind, Except.bind]

theorem except_check_eq_ok {ε β : Type} {check : Except ε Unit} {next : Unit → Except ε β}
    {result : β} : (check >>= next) = .ok result ↔ check = .ok () ∧ next () = .ok result := by
  cases check <;> simp [bind, Except.bind]

theorem exists_of_forall₂ {α β : Type} {related : α → β → Prop} {first : List α} {second : List β}
    (h : List.Forall₂ related first second) {b : β} (hb : b ∈ second) :
    ∃ a ∈ first, related a b := by
  induction h with
  | nil => cases hb
  | @cons a _ _ _ hhead _ ih =>
    rcases List.mem_cons.mp hb with rfl | hmem
    · exact ⟨a, List.mem_cons_self, hhead⟩
    · obtain ⟨found, hfound, hrelated⟩ := ih hmem
      exact ⟨found, List.mem_cons_of_mem _ hfound, hrelated⟩

theorem exists_forall₂ {α β : Type} {related : α → β → Prop} {first : List α}
    (h : ∀ a ∈ first, ∃ b, related a b) : ∃ second, List.Forall₂ related first second := by
  induction first with
  | nil => exact ⟨[], .nil⟩
  | cons a rest ih =>
    obtain ⟨⟨b, hb⟩, hrest⟩ := List.forall_mem_cons.mp h
    obtain ⟨second, hsecond⟩ := ih hrest
    exact ⟨b :: second, .cons hb hsecond⟩

/-- Pairs of related lists can be compared pair by pair. -/
theorem pairwise_iff_of_forall₂ {α β : Type} {related : α → β → Prop} {here : α → α → Prop}
    {there : β → β → Prop} {first : List α} {second : List β}
    (h : List.Forall₂ related first second)
    (hsame : ∀ a ∈ first, ∀ b ∈ first, ∀ a' b', related a a' → related b b' →
      (there a' b' ↔ here a b)) : second.Pairwise there ↔ first.Pairwise here := by
  induction h with
  | nil => simp
  | @cons a a' rest rest' hhead htail ih =>
    rw [List.pairwise_cons, List.pairwise_cons, ih fun b hb c hc =>
      hsame b (List.mem_cons_of_mem _ hb) c (List.mem_cons_of_mem _ hc)]
    refine and_congr_left' ⟨fun hall b hb => ?_, fun hall b' hb' => ?_⟩
    · obtain ⟨b', hb', hrelated⟩ := exists_of_forall₂ htail.flip hb
      exact (hsame a List.mem_cons_self b (List.mem_cons_of_mem _ hb) a' b' hhead hrelated).mp
        (hall b' hb')
    · obtain ⟨b, hb, hrelated⟩ := exists_of_forall₂ htail hb'
      exact (hsame a List.mem_cons_self b (List.mem_cons_of_mem _ hb) a' b' hhead hrelated).mpr
        (hall b hb)

/-- Where no two pins have one name, the pin of a name is the one that is found. -/
theorem Pin.find?_eq_some_iff {pins : List Pin} (h : (pins.map Pin.name).Nodup) {name : String}
    {pin : Pin} : Pin.find? pins name = some pin ↔ pin ∈ pins ∧ pin.name = name := by
  constructor
  · intro hfind
    exact ⟨List.mem_of_find?_eq_some hfind, by simpa using List.find?_some hfind⟩
  · rintro ⟨hmem, rfl⟩
    have hsome : (Pin.find? pins pin.name).isSome := by
      rw [Pin.find?, List.find?_isSome]
      exact ⟨pin, hmem, beq_self_eq_true _⟩
    obtain ⟨found, hfound⟩ := Option.isSome_iff_exists.mp hsome
    have hname : found.name = pin.name := by simpa using List.find?_some hfound
    rw [hfound, List.inj_on_of_nodup_map h (List.mem_of_find?_eq_some hfound) hmem hname]

theorem Pin.find?_isSome {pins : List Pin} {name : String} :
    (Pin.find? pins name).isSome = true ↔ name ∈ pins.map Pin.name := by
  simp [Pin.find?, List.find?_isSome]

theorem Pin.map_name_ofDeclarations (role : PinRole) (declarations : List (String × Nat)) :
    (Pin.ofDeclarations role declarations).map Pin.name = declarations.map Prod.fst := by
  rw [Pin.ofDeclarations, List.map_map]
  show declarations.zipIdx.map (Prod.fst ∘ Prod.fst) = _
  rw [← List.map_map, List.zipIdx_map_fst]

/-- The bits of a pin that a reference means: all of them, or a span of those that it has. -/
inductive Meant (width : Nat) : Option (BitNumber × BitNumber) → Option BitSpan → Prop where
  | whole : Meant width none none
  | span {low high : BitNumber} {span : BitSpan} (hlow : span.low = low) (hhigh : span.high = high)
    (hwidth : span.high < width) : Meant width (some (low, high)) (some span)

theorem Meant.has {pin : Pin} {bits : Option (BitNumber × BitNumber)} {span : Option BitSpan}
    (h : Meant pin.width bits span) : pin.Has span := by
  cases h with
  | whole =>
    intro span hspan
    cases hspan
  | span _ _ hwidth =>
    intro span hspan
    cases hspan
    exact hwidth

namespace Blueprint

def declaredNames (blueprint : Blueprint) : List String :=
  (blueprint.inputs ++ blueprint.outputs).map Prod.fst

structure LegalDeclarations (blueprint : Blueprint) : Prop where
  names : ∀ declaration ∈ blueprint.inputs ++ blueprint.outputs,
    ∃ name, BusReference.parse declaration.1 = .ok (.pin name none)
  widths : ∀ declaration ∈ blueprint.inputs ++ blueprint.outputs,
    1 ≤ declaration.2 ∧ declaration.2 ≤ 16
  distinct : blueprint.declaredNames.Nodup
  clocked : ∀ name ∈ blueprint.clocked, name ∈ blueprint.declaredNames

theorem map_name_declaredPins (blueprint : Blueprint) :
    blueprint.declaredPins.map Pin.name = blueprint.declaredNames := by
  rw [declaredPins, List.map_append, inputPins, outputPins, Pin.map_name_ofDeclarations,
    Pin.map_name_ofDeclarations, declaredNames, List.map_append]

theorem checkPin_eq_ok {owner name : String} {width : Nat} :
    checkPin owner name width = .ok () ↔
      (∃ base, BusReference.parse name = .ok (.pin base none)) ∧ 1 ≤ width ∧ width ≤ 16 := by
  unfold checkPin
  rw [except_bind_eq_ok]
  constructor
  · rintro ⟨reference, hparse, h⟩
    split at h
    · split at h
      · cases h
      · exact ⟨⟨_, hparse⟩, by omega⟩
    · cases h
  · rintro ⟨⟨base, hparse⟩, hlow, hhigh⟩
    exact ⟨_, hparse, if_neg (by omega)⟩

theorem checkPins_eq_ok {owner : String} {declarations : List (String × Nat)} :
    checkPins owner declarations = .ok () ↔ ∀ declaration ∈ declarations,
      (∃ name, BusReference.parse declaration.1 = .ok (.pin name none)) ∧
        1 ≤ declaration.2 ∧ declaration.2 ≤ 16 := by
  induction declarations with
  | nil => simp [checkPins]
  | cons declaration rest ih =>
    rw [List.forall_mem_cons, ← ih, ← @checkPin_eq_ok owner]
    exact except_check_eq_ok

theorem firstRepeated?_eq_none {seen names : List String} :
    firstRepeated? seen names = none ↔ names.Nodup ∧ ∀ name ∈ names, name ∉ seen := by
  induction names generalizing seen with
  | nil => simp [firstRepeated?]
  | cons name rest ih =>
    rw [firstRepeated?, List.nodup_cons, List.forall_mem_cons]
    split
    · rename_i hseen
      simp [hseen]
    · rename_i hnew
      rw [ih]
      constructor
      · rintro ⟨hnodup, hrest⟩
        refine ⟨⟨fun hmem => hrest name hmem List.mem_cons_self, hnodup⟩, hnew,
          fun other hother hmem => hrest other hother (List.mem_cons_of_mem _ hmem)⟩
      · rintro ⟨⟨hname, hnodup⟩, -, hrest⟩
        refine ⟨hnodup, fun other hother hmem => ?_⟩
        rcases List.mem_cons.mp hmem with rfl | hmem
        · exact hname hother
        · exact hrest other hother hmem

theorem checkNames_eq_ok {owner : String} {names : List String} :
    checkNames owner names = .ok () ↔ names.Nodup := by
  unfold checkNames
  have hnone := @firstRepeated?_eq_none [] names
  split
  · rename_i name hsome
    rw [hsome] at hnone
    simpa using hnone
  · rename_i hfound
    simpa using hnone.mp hfound

theorem checkClocked_eq_ok {owner : String} {names clocked : List String} :
    checkClocked owner names clocked = .ok () ↔ ∀ name ∈ clocked, name ∈ names := by
  unfold checkClocked
  split
  · rename_i name hsome
    refine iff_of_false (by simp) fun hall => ?_
    have hnot := List.find?_some hsome
    simp only [decide_eq_true_eq] at hnot
    exact hnot (hall name (List.mem_of_find?_eq_some hsome))
  · rename_i hnone
    simpa using hnone

theorem checkDeclarations_eq_ok {blueprint : Blueprint} :
    blueprint.checkDeclarations = .ok () ↔ blueprint.LegalDeclarations := by
  have hparts : blueprint.checkDeclarations = .ok () ↔
      checkPins blueprint.name blueprint.inputs = .ok () ∧
      checkPins blueprint.name blueprint.outputs = .ok () ∧
      checkNames blueprint.name blueprint.declaredNames = .ok () ∧
      checkClocked blueprint.name blueprint.declaredNames blueprint.clocked = .ok () := by
    rw [checkDeclarations, map_name_declaredPins]
    simp only [except_check_eq_ok]
  rw [hparts, checkPins_eq_ok, checkPins_eq_ok, checkNames_eq_ok, checkClocked_eq_ok, ← and_assoc,
    ← List.forall_mem_append]
  constructor
  · rintro ⟨hpins, hnodup, hclocked⟩
    exact ⟨fun declaration hmem => (hpins declaration hmem).1,
      fun declaration hmem => (hpins declaration hmem).2, hnodup, hclocked⟩
  · intro h
    exact ⟨fun declaration hmem => ⟨h.names declaration hmem, h.widths declaration hmem⟩,
      h.distinct, h.clocked⟩

theorem spanWithin_eq_ok {owner name : String} {width : Nat}
    {bits : Option (BitNumber × BitNumber)} {span : Option BitSpan} :
    spanWithin owner name width bits = .ok span ↔ Meant width bits span := by
  constructor
  · intro h
    unfold spanWithin at h
    split at h
    · cases h
      exact .whole
    · split at h
      · rename_i found hfound
        split at h
        · rename_i hfits
          cases h
          unfold BitSpan.ofBounds? at hfound
          split at hfound
          · cases hfound
            exact .span rfl rfl (by simpa [BitSpan.fitsIn] using hfits)
          · cases hfound
        · cases h
      · cases h
  · intro h
    cases h with
    | whole => rfl
    | @span low high span hlow hhigh hwidth =>
      have hfound : BitSpan.ofBounds? low high = some span := by
        have hle := span.low_le_high
        have hlt := span.high_lt
        rw [BitSpan.ofBounds?, dif_pos (by omega)]
        cases span
        simp only [Option.some.injEq, BitSpan.mk.injEq]
        exact ⟨hlow.symm, hhigh.symm⟩
      have hfits : span.fitsIn width = true := by simpa [BitSpan.fitsIn] using hwidth
      simp only [spanWithin, hfound, hfits, if_true]

end Blueprint

/-- What a wire whose part side is known says of the text that it has been read from. -/
structure OpenWire.Reads (wire : OpenWire) (text : Nat × Component × (String × String)) :
    Prop where
  part : wire.part = text.1
  component : wire.component = text.2.1
  pin : wire.pin ∈ wire.component.inputs ++ wire.component.outputs
  near : ∃ bits, BusReference.parse text.2.2.1 = .ok (.pin wire.pin.name bits) ∧
    Meant wire.pin.width bits wire.bits
  far : BusReference.parse text.2.2.2 = .ok wire.owner

namespace Blueprint

theorem reads_of_openWire {owner : String} {position : Nat} {component : Component}
    {references : String × String} {wire : OpenWire}
    (h : openWire owner position component references = .ok wire) :
    wire.Reads (position, component, references) := by
  unfold openWire at h
  obtain ⟨reference, hreference, h⟩ := except_bind_eq_ok.mp h
  cases reference with
  | pin name bits =>
    simp only at h
    split at h
    · rename_i pin hfind
      obtain ⟨span, hspan, h⟩ := except_bind_eq_ok.mp h
      obtain ⟨target, htarget, h⟩ := except_bind_eq_ok.mp h
      cases h
      have hname : pin.name = name := by simpa using List.find?_some hfind
      refine ⟨rfl, rfl, List.mem_of_find?_eq_some hfind, ⟨bits, ?_, spanWithin_eq_ok.mp hspan⟩,
        htarget⟩
      rw [hname]
      exact hreference
    · cases h
  | ones => cases h
  | zeros => cases h

/-- Where the pins of a part have different names, there is just one way to read a wire. -/
theorem openWire_of_reads {owner : String} {text : Nat × Component × (String × String)}
    {wire : OpenWire} (h : wire.Reads text)
    (hnames : ((text.2.1.inputs ++ text.2.1.outputs).map Pin.name).Nodup) :
    openWire owner text.1 text.2.1 text.2.2 = .ok wire := by
  obtain ⟨position, component, references⟩ := text
  obtain ⟨rfl, rfl, hpin, ⟨bits, hnear, hmeant⟩, hfar⟩ := h
  have hfind := (Pin.find?_eq_some_iff hnames).mpr ⟨hpin, rfl⟩
  unfold openWire
  simp only [hnear, hfar, bind, Except.bind, hfind, spanWithin_eq_ok.mpr hmeant, pure, Except.pure]

theorem openWires_eq_ok {owner : String} {texts : List (Nat × Component × (String × String))}
    {wires : List OpenWire} :
    openWires owner texts = .ok wires ↔
      List.Forall₂ (fun text wire => openWire owner text.1 text.2.1 text.2.2 = .ok wire) texts
        wires := by
  induction texts generalizing wires with
  | nil =>
    rw [openWires, List.forall₂_nil_left_iff, Except.ok.injEq]
    exact eq_comm
  | cons text texts ih =>
    refine except_bind_eq_ok.trans ?_
    simp only [except_bind_eq_ok, List.forall₂_cons_left_iff, ih]
    constructor
    · rintro ⟨wire, hwire, rest, hrest, h⟩
      cases h
      exact ⟨wire, rest, hwire, hrest, rfl⟩
    · rintro ⟨wire, rest, hwire, hrest, rfl⟩
      exact ⟨wire, hwire, rest, hrest, rfl⟩

/-- The internal pins that are found, after some that have been found before. -/
structure Found (declared found : List Pin) (wires : List OpenWire) (internals : List Pin) :
    Prop where
  nodup : ((declared ++ internals).map Pin.name).Nodup
  /-- Each is driven by a part. -/
  driven : ∀ pin ∈ internals, pin ∈ found ∨ pin.role = .internal ∧
    ∃ wire ∈ wires, wire.pin.role = .output ∧ wire.owner = .pin pin.name none ∧
      pin.width = wire.width
  /-- Every name that a part drives is known. -/
  known : ∀ wire ∈ wires, wire.pin.role = .output → ∀ name bits, wire.owner = .pin name bits →
    name ∈ (declared ++ internals).map Pin.name
  keeps : ∀ pin ∈ found, pin ∈ internals

theorem Found.cons {declared found internals : List Pin} {wire : OpenWire} {rest : List OpenWire}
    {pin : Pin} (h : Found declared (found ++ [pin]) rest internals) (hrole : pin.role = .internal)
    (hdriver : wire.pin.role = .output) (howner : wire.owner = .pin pin.name none)
    (hwidth : pin.width = wire.width) : Found declared found (wire :: rest) internals where
  nodup := h.nodup
  driven other hother := by
    rcases h.driven other hother with hold | ⟨hinternal, later, hlater, hdrives⟩
    · rcases List.mem_append.mp hold with hold | hnew
      · exact .inl hold
      · obtain rfl := List.mem_singleton.mp hnew
        exact .inr ⟨hrole, wire, List.mem_cons_self, hdriver, howner, hwidth⟩
    · exact .inr ⟨hinternal, later, List.mem_cons_of_mem _ hlater, hdrives⟩
  known := by
    refine List.forall_mem_cons.mpr ⟨fun _ name bits hname => ?_, h.known⟩
    rw [howner] at hname
    cases hname
    exact List.mem_map_of_mem (List.mem_append_right _ (h.keeps pin (by simp)))
  keeps other hother := h.keeps other (List.mem_append_left _ hother)

theorem Found.skip {declared found internals : List Pin} {wire : OpenWire} {rest : List OpenWire}
    (h : Found declared found rest internals)
    (hknown : wire.pin.role = .output → ∀ name bits, wire.owner = .pin name bits →
      name ∈ (declared ++ found).map Pin.name) : Found declared found (wire :: rest) internals where
  nodup := h.nodup
  driven pin hpin := by
    refine (h.driven pin hpin).imp id fun hnew => ⟨hnew.1, ?_⟩
    obtain ⟨-, later, hlater, hdrives⟩ := hnew
    exact ⟨later, List.mem_cons_of_mem _ hlater, hdrives⟩
  known := by
    refine List.forall_mem_cons.mpr ⟨fun hdriver name bits hname => ?_, h.known⟩
    obtain ⟨pin, hpin, hsame⟩ := List.mem_map.mp (hknown hdriver name bits hname)
    refine List.mem_map.mpr ⟨pin, ?_, hsame⟩
    exact (List.mem_append.mp hpin).elim (List.mem_append_left _)
      fun hfound => List.mem_append_right _ (h.keeps pin hfound)
  keeps := h.keeps

theorem found_of_findInternals {owner : String} {declared found internals : List Pin}
    {wires : List OpenWire} (hnodup : ((declared ++ found).map Pin.name).Nodup)
    (h : findInternals owner declared found wires = .ok internals) :
    Found declared found wires internals := by
  induction wires generalizing found with
  | nil =>
    cases h
    exact ⟨hnodup, fun pin hpin => .inl hpin, by simp, fun _ hpin => hpin⟩
  | cons wire rest ih =>
    unfold findInternals at h
    split at h
    · rename_i name bits hdriver howner
      split at h
      · rename_i hold
        refine (ih hnodup h).skip fun _ other bits' hother => ?_
        rw [howner] at hother
        cases hother
        exact Pin.find?_isSome.mp hold
      · rename_i hnew
        split at h
        · cases h
        · rename_i hbits
          rw [Pin.find?_isSome] at hnew
          refine Found.cons (ih ?_ h) rfl hdriver ?_ rfl
          · rw [← List.append_assoc, List.map_append, List.map_singleton, ← List.concat_eq_append]
            exact List.Nodup.concat hnew hnodup
          · rw [howner, Option.not_isSome_iff_eq_none.mp hbits]
    · rename_i hother
      exact (ih hnodup h).skip fun hdriver name bits hname =>
        absurd hname (hother name bits hdriver)

/-- Only a new name with bits is refused. -/
theorem exists_findInternals {owner : String} {declared found : List Pin} {wires : List OpenWire}
    (h : ∀ wire ∈ wires, wire.pin.role = .output → ∀ name bits, wire.owner = .pin name bits →
      name ∈ declared.map Pin.name ∨ bits = none) :
    ∃ internals, findInternals owner declared found wires = .ok internals := by
  induction wires generalizing found with
  | nil => exact ⟨found, rfl⟩
  | cons wire rest ih =>
    obtain ⟨hwire, hrest⟩ := List.forall_mem_cons.mp h
    unfold findInternals
    split
    · rename_i name bits hdriver howner
      split
      · exact ih hrest
      · rename_i hnew
        rcases hwire hdriver name bits howner with hdeclared | rfl
        · rw [Pin.find?_isSome, List.map_append, List.mem_append] at hnew
          exact absurd (.inl hdeclared) hnew
        · exact ih hrest
    · exact ih hrest

end Blueprint

inductive OpenWire.Joined (pins : List Pin) (wire : OpenWire) : Joint → Prop where
  | ones (hinput : wire.pin.role = .input) (howner : wire.owner = .ones) :
    Joined pins wire (wire.source .ones none none)
  | zeros (hinput : wire.pin.role = .input) (howner : wire.owner = .zeros) :
    Joined pins wire (wire.source .zeros none none)
  | read {pin : Pin} {bits : Option (BitNumber × BitNumber)} {span : Option BitSpan}
    (hinput : wire.pin.role = .input) (howner : wire.owner = .pin pin.name bits)
    (hpin : pin ∈ pins) (hrole : pin.role ≠ .output) (hmeant : Meant pin.width bits span)
    (hwidth : pin.widthOf span = wire.width) :
    Joined pins wire (wire.source (.pin pin.role pin.index) span (some pin))
  | drive {pin : Pin} {bits : Option (BitNumber × BitNumber)} {span : Option BitSpan}
    (houtput : wire.pin.role ≠ .input) (howner : wire.owner = .pin pin.name bits)
    (hpin : pin ∈ pins) (hrole : pin.role ≠ .input)
    (hwhole : pin.role = .internal → bits = none) (hmeant : Meant pin.width bits span)
    (hwidth : pin.widthOf span = wire.width) : Joined pins wire (wire.target pin pin.name span)

namespace OpenWire

/-- A wire from an output drives a pin that is no input. -/
theorem Joined.of_output {pins : List Pin} {wire : OpenWire} {joint : Joint}
    (h : wire.Joined pins joint) (houtput : wire.pin.role = .output) :
    ∃ pin ∈ pins, ∃ bits span, wire.owner = .pin pin.name bits ∧ pin.role ≠ .input ∧
      (pin.role = .internal → bits = none) ∧ Meant pin.width bits span ∧
      pin.widthOf span = wire.width ∧ joint = wire.target pin pin.name span := by
  cases h with
  | ones hinput => rw [houtput] at hinput; cases hinput
  | zeros hinput => rw [houtput] at hinput; cases hinput
  | read hinput => rw [houtput] at hinput; cases hinput
  | drive _ howner hpin hrole hwhole hmeant hwidth =>
    exact ⟨_, hpin, _, _, howner, hrole, hwhole, hmeant, hwidth, rfl⟩

/-- A wire from a pin to an input reads a pin that is no output. -/
theorem Joined.of_input {pins : List Pin} {wire : OpenWire} {joint : Joint}
    (h : wire.Joined pins joint) (hinput : wire.pin.role = .input) {name : String}
    {bits : Option (BitNumber × BitNumber)} (howner : wire.owner = .pin name bits) :
    ∃ pin ∈ pins, pin.name = name ∧ pin.role ≠ .output ∧
      ∃ span, joint = wire.source (.pin pin.role pin.index) span (some pin) := by
  cases h with
  | ones _ hfar => rw [howner] at hfar; cases hfar
  | zeros _ hfar => rw [howner] at hfar; cases hfar
  | read _ hfar hpin hrole =>
    rw [howner] at hfar
    exact ⟨_, hpin, (BusReference.pin.inj hfar).1.symm, hrole, _, rfl⟩
  | drive houtput => exact absurd hinput houtput

theorem ownerSpan_eq_ok {owner name : String} {wire : OpenWire} {pin : Pin}
    {bits : Option (BitNumber × BitNumber)} {span : Option BitSpan} :
    wire.ownerSpan owner pin name bits = .ok span ↔
      Meant pin.width bits span ∧ pin.widthOf span = wire.width := by
  rw [ownerSpan, except_bind_eq_ok]
  simp only [Blueprint.spanWithin_eq_ok]
  constructor
  · rintro ⟨found, hmeant, h⟩
    split at h
    · rename_i hwidth
      cases h
      exact ⟨hmeant, hwidth⟩
    · cases h
  · rintro ⟨hmeant, hwidth⟩
    exact ⟨span, hmeant, if_pos hwidth⟩

theorem joined_of_joinSource {owner : String} {pins : List Pin} {wire : OpenWire} {joint : Joint}
    (hinput : wire.pin.role = .input) (h : wire.joinSource owner pins = .ok joint) :
    wire.Joined pins joint := by
  unfold joinSource at h
  split at h
  · rename_i howner
    cases h
    exact .ones hinput howner
  · rename_i howner
    cases h
    exact .zeros hinput howner
  · rename_i name bits howner
    split at h
    · cases h
    · rename_i pin hfind
      obtain rfl : pin.name = name := by simpa using List.find?_some hfind
      split at h
      · cases h
      · rename_i hrole
        obtain ⟨span, hspan, h⟩ := except_bind_eq_ok.mp h
        cases h
        obtain ⟨hmeant, hwidth⟩ := ownerSpan_eq_ok.mp hspan
        exact .read hinput howner (List.mem_of_find?_eq_some hfind) hrole hmeant hwidth

theorem joined_of_joinTarget {owner : String} {pins : List Pin} {wire : OpenWire} {joint : Joint}
    (houtput : wire.pin.role ≠ .input) (h : wire.joinTarget owner pins = .ok joint) :
    wire.Joined pins joint := by
  unfold joinTarget at h
  split at h
  · cases h
  · cases h
  · rename_i name bits howner
    split at h
    · cases h
    · rename_i pin hfind
      obtain rfl : pin.name = name := by simpa using List.find?_some hfind
      split at h
      · cases h
      · rename_i hrole
        split at h
        · cases h
        · rename_i hwhole
          obtain ⟨span, hspan, h⟩ := except_bind_eq_ok.mp h
          cases h
          obtain ⟨hmeant, hwidth⟩ := ownerSpan_eq_ok.mp hspan
          refine .drive houtput howner (List.mem_of_find?_eq_some hfind) hrole
            (fun hinternal => ?_) hmeant hwidth
          simpa [hinternal] using hwhole

theorem joined_of_join {owner : String} {pins : List Pin} {wire : OpenWire} {joint : Joint}
    (h : wire.join owner pins = .ok joint) : wire.Joined pins joint := by
  unfold join at h
  split at h
  · rename_i hinput
    exact joined_of_joinSource hinput h
  · rename_i houtput
    exact joined_of_joinTarget houtput h

/-- Where the pins have different names, a wire is joined to whatever it can be joined to. -/
theorem join_of_joined {owner : String} {pins : List Pin} (hnames : (pins.map Pin.name).Nodup)
    {wire : OpenWire} {joint : Joint} (h : wire.Joined pins joint) :
    wire.join owner pins = .ok joint := by
  cases h with
  | ones hinput howner => rw [join, if_pos hinput, joinSource, howner]
  | zeros hinput howner => rw [join, if_pos hinput, joinSource, howner]
  | @read pin bits span hinput howner hpin hrole hmeant hwidth =>
    have hfind := (Pin.find?_eq_some_iff hnames).mpr ⟨hpin, rfl⟩
    rw [join, if_pos hinput, joinSource, howner]
    simp only [hfind, if_neg hrole]
    exact except_bind_eq_ok.mpr ⟨span, ownerSpan_eq_ok.mpr ⟨hmeant, hwidth⟩, rfl⟩
  | @drive pin bits span houtput howner hpin hrole hwhole hmeant hwidth =>
    have hfind := (Pin.find?_eq_some_iff hnames).mpr ⟨hpin, rfl⟩
    have hbits : ¬ (pin.role = .internal ∧ bits.isSome = true) := by
      rintro ⟨hinternal, hsome⟩
      rw [hwhole hinternal] at hsome
      cases hsome
    rw [join, if_neg houtput, joinTarget, howner]
    simp only [hfind, if_neg hrole, if_neg hbits]
    exact except_bind_eq_ok.mpr ⟨span, ownerSpan_eq_ok.mpr ⟨hmeant, hwidth⟩, rfl⟩

end OpenWire

/-- Every wire has a joint, and no joint clashes with one before it. -/
theorem Blueprint.joinWires_eq_ok {owner : String} {pins : List Pin} {joined joints : List Joint}
    {wires : List OpenWire} (hjoined : joined.Pairwise fun a b => b.clashes a = false) :
    joinWires owner pins joined wires = .ok joints ↔ ∃ added, joints = joined ++ added ∧
      List.Forall₂ (fun wire joint => wire.join owner pins = .ok joint) wires added ∧
      joints.Pairwise fun a b => b.clashes a = false := by
  induction wires generalizing joined with
  | nil =>
    rw [joinWires, Except.ok.injEq]
    constructor
    · rintro rfl
      exact ⟨[], (List.append_nil _).symm, .nil, hjoined⟩
    · rintro ⟨added, rfl, hadded, -⟩
      cases hadded
      exact (List.append_nil _).symm
  | cons wire rest ih =>
    refine except_bind_eq_ok.trans ?_
    -- a joint is taken in just where it clashes with none before it
    have hnext : ∀ joint : Joint,
        (joined ++ [joint]).Pairwise (fun a b => b.clashes a = false) ↔
          ¬ joined.any joint.clashes = true := by
      intro joint
      simp [List.pairwise_append, hjoined]
    constructor
    · rintro ⟨joint, hjoint, h⟩
      split at h
      · cases h
      · rename_i hfree
        obtain ⟨added, rfl, hadded, hpairs⟩ := (ih ((hnext joint).mpr hfree)).mp h
        refine ⟨joint :: added, ?_, .cons hjoint hadded, hpairs⟩
        rw [List.append_assoc, List.singleton_append]
    · rintro ⟨added, rfl, hadded, hpairs⟩
      cases hadded with
      | @cons _ joint _ added hjoint hadded =>
        have hmove : joined ++ joint :: added = (joined ++ [joint]) ++ added := by
          rw [List.append_assoc, List.singleton_append]
        have hpair := (List.pairwise_append.mp (hmove ▸ hpairs)).1
        refine ⟨joint, hjoint, ?_⟩
        rw [if_neg ((hnext joint).mp hpair)]
        exact (ih hpair).mpr ⟨added, hmove, hadded, hpairs⟩

end ClockedLogic
