import ClockedLogic.Proofs.Fabric
import ClockedLogic.Proofs.PartOrder

/-!
When nodes are due. The parts of a gate are visited in turn, round after round, and nothing happens
outside the gate. A node is due at a time if no later visit can change it any more. No output
depends on a clocked input, so in the first round all outputs of the gate fall due; what they lead
back to can only be clocked inputs of the gate. In the second round everything that the parts read
falls due, since parts come after the parts that feed them.
-/

namespace ClockedLogic

/-- Whether parts come after the parts that feed them, at all depths. -/
inductive Component.Sorted : Component → Prop where
  | primitive (kind : Primitive) : Sorted kind.component
  | composite {interface : Interface} {internals : List Pin} {parts : List (Part Component)}
    {dependencies : Digraph Vertex} (hparts : ∀ part ∈ parts, part.component.Sorted)
    (hsorted : ∀ (i j : Nat) part other, parts[i]? = some part → parts[j]? = some other →
      part.Feeds other → i < j) : Sorted (.composite interface internals parts dependencies)

theorem Component.Sorted.parts {interface : Interface} {internals : List Pin}
    {parts : List (Part Component)} {dependencies : Digraph Vertex}
    (h : (Component.composite interface internals parts dependencies).Sorted) :
    (∀ part ∈ parts, part.component.Sorted) ∧
      ∀ (i j : Nat) part other, parts[i]? = some part → parts[j]? = some other →
        part.Feeds other → i < j := by
  generalize hcomponent : Component.composite interface internals parts dependencies = component
    at h
  cases h with
  | primitive kind =>
    rw [Primitive.component] at hcomponent
    cases hcomponent
  | composite hparts hsorted =>
    cases hcomponent
    exact ⟨hparts, hsorted⟩

theorem Blueprint.sorted_of_build {blueprint : Blueprint} {component : Component}
    (hchip : blueprint.chip = none) (hparts : ∀ part ∈ blueprint.parts, part.1.Sorted)
    (hbuild : blueprint.build = .ok component) : component.Sorted := by
  obtain ⟨-, wires, found, joints, hwires, -, hjoints, hassemble⟩ := build_eq_ok hchip hbuild
  obtain ⟨hcircle, rfl⟩ := assemble_eq_ok.mp hassemble
  refine .composite (fun part hpart => ?_) fun i j part other hi hj hfeeds =>
    lt_of_feeds (joining_of_joinWires hwires hjoints) hcircle hi hj hfeeds
  obtain ⟨⟨_, hget⟩, -⟩ := Joinery.mem_sortedParts hpart
  exact hparts _ (List.mem_of_getElem? hget)

/-- In standard components parts come after the parts that feed them. -/
theorem Standard.sorted {component : Component} (h : Standard component) : component.Sorted := by
  induction h with
  | primitive kind => exact .primitive kind
  | composite hchip _ _ hbuild ih => exact Blueprint.sorted_of_build hchip ih hbuild

variable {drivers : Driver → Prop} {entries : Nat → Prop} {good : Nat → Prop} {root gate : Gate}
  {pairs : List (Part Component × Gate)}

structure Arranged (drivers : Driver → Prop) (entries : Nat → Prop) (root : Gate) : Prop where
  laid : Laid drivers entries root
  distinct : root.Distinct
  sorted : root.component.Sorted
  drives : ∀ inner ∈ root.all, drivers (.gate inner)
  undriven : ∀ driver node, drivers driver → driver.Drives node → node ∉ root.inputs

structure Interior (drivers : Driver → Prop) (entries : Nat → Prop) (root gate : Gate)
    (pairs : List (Part Component × Gate)) : Prop where
  mem : gate ∈ root.all
  parts : gate.parts = pairs.map Prod.snd
  same : ∀ pair ∈ pairs, pair.2.component = pair.1.component
  sorted : ∀ (i j : Nat) pair other, pairs[i]? = some pair → pairs[j]? = some other →
    pair.1.Feeds other.1 → i < j
  cutOff : ∀ index, gate.component.isInputClocked index = true → ∀ output < gate.outputs.length,
    ¬ Relation.ReflTransGen (Dependency (pairs.map Prod.fst)) (.input index) (.output output)
  inputs : ∀ pair ∈ pairs, ∀ (position node : Nat), pair.2.inputs[position]? = some node →
    Follows drivers entries node (Reads gate pair.1 position)
  pins : ∀ role index node, role ≠ .input → (gate.nodesOf role)[index]? = some node →
    Follows drivers entries node (Writes pairs role index)

namespace Arranged

theorem sorted_inside (h : Arranged drivers entries root) :
    ∀ inner ∈ root.all, inner.component.Sorted := by
  refine Gate.forall_inside h.sorted fun owner howner hsorted part hpart => ?_
  cases h.laid.of_mem_all howner with
  | builtIn => cases hpart
  | composite pairs hcomponent _ hparts hgates _ _ hsame _ _ =>
    rw [Gate.parts, hgates] at hpart
    obtain ⟨pair, hpair, rfl⟩ := List.mem_map.mp hpart
    rw [Gate.component, Gate.site, hcomponent] at hsorted
    rw [hsame pair hpair]
    exact hsorted.parts.1 _ (hparts ▸ List.mem_map_of_mem hpair)

theorem exists_interior (h : Arranged drivers entries root) {site : Site} {internals : List Nat}
    {gates : List Gate} (hgate : .composite site internals gates ∈ root.all) :
    ∃ pairs, Interior drivers entries root (.composite site internals gates) pairs := by
  have hsorted := h.sorted_inside _ hgate
  cases h.laid.of_mem_all hgate with
  | composite pairs hcomponent houtputs hparts hgates hwiring _ hsame hinputs hpins =>
    subst hparts
    rw [Gate.component, Gate.site, hcomponent] at hsorted
    refine ⟨pairs, hgate, hgates, hsame, fun i j pair other hi hj hfeeds => ?_,
      fun index hclocked output houtput => ?_, hinputs, hpins⟩
    · refine hsorted.parts.2 i j pair.1 other.1 ?_ ?_ hfeeds
      · rw [List.getElem?_map, hi, Option.map_some]
      · rw [List.getElem?_map, hj, Option.map_some]
    · rw [Gate.component, Gate.site, hcomponent] at hclocked
      exact hwiring.cutOff index hclocked output (houtputs ▸ houtput)

/-- Outside a cut, what holds of the outputs of all primitives and of the cut holds of all
outputs. -/
theorem outputs_hold (h : Arranged drivers entries root) (hgood : Inherited drivers entries good)
    {cut : Gate} (hcut : cut ∈ root.all)
    (hbuiltIns : ∀ site spec, .builtIn site spec ∈ root.all → .builtIn site spec ∉ cut.all →
      ∀ node ∈ site.outputs, good node)
    (hgate : gate ∈ root.all) (houtside : gate ∈ cut.all → gate = cut)
    (houtputs : cut ∈ gate.all → ∀ node ∈ cut.outputs, good node) :
    ∀ node ∈ gate.outputs, good node := by
  have hlaid := h.laid.of_mem_all hgate
  induction hlaid with
  | @builtIn site kind =>
    by_cases hsame : .builtIn site (.primitive kind) = cut
    · subst hsame
      exact houtputs (Gate.mem_all_self _)
    · exact hbuiltIns _ _ hgate fun hmem => hsame (houtside hmem)
  | @composite site internals gates pairs _ _ _ _ _ _ _ hgates _ _ _ _ hpins ih =>
    by_cases hsame : .composite site internals gates = cut
    · subst hsame
      exact houtputs (Gate.mem_all_self _)
    · intro node hnode
      obtain ⟨index, hindex⟩ := List.mem_iff_getElem?.mp hnode
      refine hgood node _ (hpins .output index node (by decide) hindex) ?_
      rintro source ⟨pair, hpair, wire, -, -, -, hsource⟩
      have hpart : pair.2 ∈ (Gate.composite site internals gates).parts :=
        hgates ▸ List.mem_map_of_mem hpair
      have hmem := Gate.mem_all_of_part hpart
      refine ih pair hpair (Gate.mem_all_trans hmem hgate) (fun hinside => ?_)
        (fun hinner => houtputs (Gate.mem_all_trans hinner hmem)) source
        (List.mem_of_getElem? hsource)
      rcases h.distinct.owner_inside hgate hpart hcut hinside with hpartCut | howner
      · exact hpartCut.symm
      · exact absurd (houtside howner) hsame

/-- What also holds of the inputs of a gate around a cut holds of the inputs of the cut. -/
theorem inputs_hold (h : Arranged drivers entries root) (hgood : Inherited drivers entries good)
    {cut : Gate} (hcut : cut ∈ gate.all)
    (hbuiltIns : ∀ site spec, .builtIn site spec ∈ root.all → .builtIn site spec ∉ cut.all →
      ∀ node ∈ site.outputs, good node)
    (houtputs : ∀ node ∈ cut.outputs, good node) (hgate : gate ∈ root.all)
    (hinputs : ∀ node ∈ gate.inputs, good node) : ∀ node ∈ cut.inputs, good node := by
  have hcutRoot := Gate.mem_all_trans hcut hgate
  have hlaid := h.laid.of_mem_all hgate
  induction hlaid with
  | builtIn =>
    rw [Gate.all, List.mem_singleton] at hcut
    rwa [hcut]
  | @composite site internals gates pairs _ _ _ _ _ _ _ hgates _ _ _ hreads hpins ih =>
    rcases Gate.mem_all_iff.mp hcut with rfl | ⟨part, hpart, hinner⟩
    · exact hinputs
    · have houtside : .composite site internals gates ∉ cut.all := by
        intro hmem
        have hsame := (h.distinct.inside hcutRoot).antisymm hmem hcut
        exact (h.distinct.inside hgate).notMem_part hpart (hsame ▸ hinner)
      rw [Gate.parts, hgates] at hpart
      obtain ⟨pair, hpair, rfl⟩ := List.mem_map.mp hpart
      have hmem : ∀ pair ∈ pairs, pair.2 ∈ (Gate.composite site internals gates).parts :=
        fun pair hpair => hgates ▸ List.mem_map_of_mem hpair
      have hroot : ∀ pair ∈ pairs, pair.2 ∈ root.all := fun pair hpair =>
        Gate.part_mem_all hgate (hmem pair hpair)
      refine ih pair hpair hinner (hroot pair hpair) fun node hnode => ?_
      obtain ⟨position, hposition⟩ := List.mem_iff_getElem?.mp hnode
      refine hgood node _ (hreads pair hpair position node hposition) ?_
      rintro source ⟨_, -, -, -, role, index, hrole, -, hsource⟩
      by_cases hinput : role = .input
      · subst hinput
        exact hinputs source (List.mem_of_getElem? hsource)
      · refine hgood source _ (hpins role index source hinput hsource) ?_
        rintro far ⟨other, hother, _, -, -, -, hfar⟩
        refine h.outputs_hold hgood hcutRoot hbuiltIns (hroot other hother) (fun hinside => ?_)
          (fun _ => houtputs) far (List.mem_of_getElem? hfar)
        exact ((h.distinct.owner_inside hgate (hmem other hother) hcutRoot hinside).resolve_right
          houtside).symm

end Arranged

/-- Whether a node can no longer change from some time on, while the parts of a gate are visited in
turn and nothing else happens. -/
inductive Due (drivers : Driver → Prop) (gate : Gate) : Nat → Nat → Prop where
  | still {time node : Nat} (hundriven : ∀ inner ∈ gate.all, ¬ (Driver.gate inner).Drives node)
    (hlinks : ∀ source bits targetBits,
      drivers (.statement (.link source bits node targetBits)) → Due drivers gate time source) :
    Due drivers gate time node
  /-- What a primitive reads is due when the part around it has been visited. -/
  | visited {time visit node : Nat} {part : Gate} {site : Site} {kind : Primitive}
    (hpart : gate.parts[visit % gate.parts.length]? = some part)
    (hinner : .builtIn site (.primitive kind) ∈ part.all) (hnode : node ∈ site.outputs)
    (hvisit : visit < time)
    (hinputs : ∀ (position input : Nat), site.inputs[position]? = some input →
      kind.component.isInputClocked position = false → Due drivers gate (visit + 1) input) :
    Due drivers gate time node

namespace Due

variable {time node : Nat}

theorem mono (h : Due drivers gate time node) {later : Nat} (hle : time ≤ later) :
    Due drivers gate later node := by
  induction h generalizing later with
  | still hundriven _ ih =>
    exact .still hundriven fun source bits targetBits hlink => ih source bits targetBits hlink hle
  | visited hpart hinner hnode hvisit hinputs =>
    exact .visited hpart hinner hnode (Nat.lt_of_lt_of_le hvisit hle) hinputs

theorem inside (h : Due drivers gate 0 node) {part : Gate} (hpart : part ∈ gate.all) (time : Nat) :
    Due drivers part time node := by
  generalize hzero : 0 = start at h
  induction h with
  | still hundriven _ ih =>
    subst hzero
    exact .still (fun inner hinner => hundriven inner (Gate.mem_all_trans hinner hpart))
      fun source bits targetBits hlink => ih source bits targetBits hlink rfl
  | visited _ _ _ hvisit => omega

/-- A node is due when those are that it takes its bits from. -/
theorem inherited (h : Arranged drivers entries root) (hgate : gate ∈ root.all) (time : Nat) :
    Inherited drivers entries (Due drivers gate time) := by
  intro node origin hfollows horigin
  rcases hfollows with hsame | ⟨-, hdrivers⟩
  · exact horigin node hsame
  · refine .still (fun inner hinner hdrives => ?_) fun source bits targetBits hlink =>
      horigin source (hdrivers _ hlink rfl)
    exact hdrivers _ (h.drives inner (Gate.mem_all_trans hinner hgate)) hdrives

/-- Inputs of the circuit are due from the start. -/
theorem of_entry (h : Arranged drivers entries root) (hgate : gate ∈ root.all)
    (hnode : node ∈ root.inputs) : Due drivers gate time node :=
  .still (fun inner hinner hdrives =>
      h.undriven _ node (h.drives inner (Gate.mem_all_trans hinner hgate)) hdrives hnode)
    fun _ _ _ hlink => absurd hnode (h.undriven _ node hlink rfl)

/-- What primitives outside a gate drive is due from the start. -/
theorem of_outside (h : Arranged drivers entries root) (hgate : gate ∈ root.all) {site : Site}
    {spec : ChipSpec} (hmem : .builtIn site spec ∈ root.all)
    (houtside : .builtIn site spec ∉ gate.all) (hnode : node ∈ site.outputs) : Due drivers gate time node := by
  cases h.laid.of_mem_all hmem with
  | builtIn _ _ _ _ _ honly =>
    refine .still (fun inner hinner hdrives => ?_) fun source bits targetBits hlink => ?_
    · have hsame := honly _ node (h.drives inner (Gate.mem_all_trans hinner hgate)) hdrives hnode
      rw [Driver.gate.injEq] at hsame
      exact houtside (hsame ▸ hinner)
    · cases honly _ node hlink rfl hnode

/-- The outputs of a primitive are due after a visit if what it reads is. -/
theorem passesOn (h : Arranged drivers entries root) {visit : Nat} {part : Gate}
    (hpart : gate.parts[visit % gate.parts.length]? = some part) {site : Site} {kind : Primitive}
    (hinner : .builtIn site (.primitive kind) ∈ part.all)
    (hmem : .builtIn site (.primitive kind) ∈ root.all) :
    (Gate.builtIn site (.primitive kind)).PassesOn (Due drivers gate (visit + 1)) := by
  intro hinputs node hnode
  refine .visited hpart hinner hnode (Nat.lt_succ_self _) fun position input hinput hclocked =>
    hinputs position input hinput ?_
  cases h.laid.of_mem_all hmem with
  | builtIn hcomponent =>
    rw [Gate.component, Gate.site, hcomponent]
    exact hclocked

end Due

namespace Interior

variable (h : Interior drivers entries root gate pairs)
include h

theorem part_mem {pair : Part Component × Gate} (hpair : pair ∈ pairs) : pair.2 ∈ gate.parts :=
  h.parts ▸ List.mem_map_of_mem hpair

theorem root_mem {pair : Part Component × Gate} (hpair : pair ∈ pairs) : pair.2 ∈ root.all :=
  Gate.part_mem_all h.mem (h.part_mem hpair)

theorem getElem?_parts {i : Nat} {pair : Part Component × Gate} (hpair : pairs[i]? = some pair) :
    gate.parts[i]? = some pair.2 := by
  rw [h.parts, List.getElem?_map, hpair, Option.map_some]

/-- A part does not change the outputs of its siblings. -/
theorem due_sibling (harranged : Arranged drivers entries root) {i j : Nat}
    {pair other : Part Component × Gate} (hi : pairs[i]? = some pair) (hj : pairs[j]? = some other)
    (hne : i ≠ j) : ∀ node ∈ other.2.outputs, Due drivers pair.2 0 node := by
  have hapart : ∀ inner ∈ pair.2.all, inner ∉ other.2.all := fun inner hinner hinner' =>
    hne (Gate.position_eq_of_mem_all (harranged.distinct.inside h.mem).parts (h.getElem?_parts hi)
      (h.getElem?_parts hj) hinner hinner')
  have hpart := h.root_mem (List.mem_of_getElem? hi)
  refine harranged.outputs_hold (Due.inherited harranged hpart 0) hpart
    (fun site spec hmem houtside node => Due.of_outside harranged hpart hmem houtside)
    (h.root_mem (List.mem_of_getElem? hj)) (fun hinside => ?_) fun hinside => ?_
  · exact absurd (Gate.mem_all_self _) (hapart _ hinside)
  · exact absurd hinside (hapart _ (Gate.mem_all_self _))

/-- A part does not change its inputs that are not clocked if its owner does not change such. -/
theorem due_part (harranged : Arranged drivers entries root)
    (howner : ∀ (position node : Nat), gate.inputs[position]? = some node →
      gate.component.isInputClocked position = false → Due drivers gate 0 node) {i : Nat}
    {pair : Part Component × Gate} (hi : pairs[i]? = some pair) {position node : Nat}
    (hnode : pair.2.inputs[position]? = some node)
    (hclocked : pair.2.component.isInputClocked position = false) : Due drivers pair.2 0 node := by
  have hpair := List.mem_of_getElem? hi
  have hpart := h.root_mem hpair
  have hinherited := Due.inherited harranged hpart 0
  rw [h.same pair hpair] at hclocked
  refine hinherited node _ (h.inputs pair hpair position node hnode) ?_
  rintro source ⟨wire, hwire, hinput, rfl, role, index, -, hread, hsource⟩
  have hreads : Dependency (pairs.map Prod.fst) (role.vertex index) (.part pair.1.position) :=
    .read (List.mem_map_of_mem hpair) hwire hinput hread hclocked
  by_cases hrole : role = .input
  · subst hrole
    cases hentry : gate.component.isInputClocked index with
    | false =>
      exact (howner index source hsource hentry).inside
        (Gate.mem_all_of_part (h.part_mem hpair)) 0
    | true =>
      -- the part does not lead to outputs of its owner, so nothing comes back around the owner
      refine harranged.inputs_hold hinherited h.mem
        (fun site spec hmem houtside node => Due.of_outside harranged hpart hmem fun hinside =>
          houtside (Gate.mem_all_trans hinside (Gate.mem_all_of_part (h.part_mem hpair))))
        (fun output houtput => ?_) root.mem_all_self
        (fun entry => Due.of_entry harranged hpart) source (List.mem_of_getElem? hsource)
      obtain ⟨place, hplace⟩ := List.mem_iff_getElem?.mp houtput
      refine hinherited output _ (h.pins .output place output (by decide) hplace) ?_
      rintro far ⟨other, hother, driver, hdriver, houtputRole, hdrives, hfar⟩
      obtain ⟨j, hj⟩ := List.mem_iff_getElem?.mp hother
      refine h.due_sibling harranged hi hj (fun hsame => ?_) far (List.mem_of_getElem? hfar)
      subst hsame
      obtain rfl := Option.some.inj (hi.symm.trans hj)
      exact h.cutOff index hentry place (List.getElem?_eq_some_iff.mp hplace).1
        (.tail (.single hreads) (.drive (List.mem_map_of_mem hpair) hdriver houtputRole hdrives))
  · refine hinherited source _ (h.pins role index source hrole hsource) ?_
    rintro far ⟨other, hother, driver, hdriver, houtputRole, hdrives, hfar⟩
    obtain ⟨j, hj⟩ := List.mem_iff_getElem?.mp hother
    have hlt := h.sorted j i other pair hj hi ⟨role, index, ⟨driver, hdriver, houtputRole, hdrives⟩,
      wire, hwire, hinput, hread, hclocked⟩
    exact h.due_sibling harranged hi hj (by omega) far (List.mem_of_getElem? hfar)

end Interior

/-- No gate changes those of its own inputs that are not clocked. -/
theorem Arranged.due_unclocked (h : Arranged drivers entries root) :
    ∀ inner ∈ root.all, ∀ (position node : Nat), inner.inputs[position]? = some node →
      inner.component.isInputClocked position = false → Due drivers inner 0 node := by
  refine Gate.forall_inside (fun _ _ hnode _ =>
    Due.of_entry h root.mem_all_self (List.mem_of_getElem? hnode)) ?_
  intro owner howner hdue part hpart position node hnode hclocked
  cases owner with
  | builtIn => cases hpart
  | composite site internals gates =>
    obtain ⟨pairs, hinterior⟩ := h.exists_interior howner
    rw [hinterior.parts] at hpart
    obtain ⟨pair, hpair, rfl⟩ := List.mem_map.mp hpart
    obtain ⟨i, hi⟩ := List.mem_iff_getElem?.mp hpair
    exact hinterior.due_part h hdue hi hnode hclocked

namespace Interior

variable (h : Interior drivers entries root gate pairs)
include h

/-- In a round that starts when the live inputs of a gate are due, the outputs of its live parts
fall due one after the other. -/
theorem due_outputs (harranged : Arranged drivers entries root) (round : Nat)
    (live : Vertex → Prop) (hback : ∀ a b, Dependency (pairs.map Prod.fst) a b → live b → live a)
    (hinputs : ∀ index, live (.input index) → ∀ node, gate.inputs[index]? = some node →
      Due drivers gate (round * pairs.length) node) {i : Nat} {pair : Part Component × Gate}
    (hi : pairs[i]? = some pair) (hlive : live (.part pair.1.position)) :
    ∀ node ∈ pair.2.outputs, Due drivers gate (round * pairs.length + i + 1) node := by
  induction i using Nat.strongRecOn generalizing pair with
  | ind i ih =>
    have hpair := List.mem_of_getElem? hi
    have hinherited := Due.inherited harranged h.mem (round * pairs.length + i + 1)
    have hlength : gate.parts.length = pairs.length := by rw [h.parts, List.length_map]
    have hvisit : (round * pairs.length + i) % gate.parts.length = i := by
      rw [hlength, Nat.mul_comm, Nat.mul_add_mod,
        Nat.mod_eq_of_lt (List.getElem?_eq_some_iff.mp hi).1]
    have hpart : gate.parts[(round * pairs.length + i) % gate.parts.length]? = some pair.2 := by
      rw [hvisit]
      exact h.getElem?_parts hi
    refine (harranged.laid.of_mem_all (h.root_mem hpair)).passesOn hinherited
      (fun site kind hinner => Due.passesOn harranged hpart hinner
        (Gate.mem_all_trans hinner (h.root_mem hpair))) fun position node hnode hclocked => ?_
    rw [h.same pair hpair] at hclocked
    refine hinherited node _ (h.inputs pair hpair position node hnode) ?_
    rintro source ⟨wire, hwire, hinput, rfl, role, index, -, hread, hsource⟩
    have hpin := hback _ _ (.read (List.mem_map_of_mem hpair) hwire hinput hread hclocked) hlive
    by_cases hrole : role = .input
    · subst hrole
      exact (hinputs index hpin source hsource).mono (by omega)
    · refine hinherited source _ (h.pins role index source hrole hsource) ?_
      rintro far ⟨other, hother, driver, hdriver, houtputRole, hdrives, hfar⟩
      obtain ⟨j, hj⟩ := List.mem_iff_getElem?.mp hother
      have hlt := h.sorted j i other pair hj hi ⟨role, index, ⟨driver, hdriver, houtputRole,
        hdrives⟩, wire, hwire, hinput, hread, hclocked⟩
      refine (ih j hlt hj ?_ far (List.mem_of_getElem? hfar)).mono (by omega)
      exact hback _ _ (.drive (List.mem_map_of_mem hother) hdriver houtputRole hdrives) hpin

/-- After the first round the inputs of a gate are due, whatever they have to do with its
outputs. -/
theorem due_inputs (harranged : Arranged drivers entries root) :
    ∀ node ∈ gate.inputs, Due drivers gate pairs.length node := by
  have hinherited := Due.inherited harranged h.mem pairs.length
  refine harranged.inputs_hold hinherited h.mem
    (fun site spec hmem houtside node => Due.of_outside harranged h.mem hmem houtside)
    (fun output houtput => ?_) root.mem_all_self fun entry => Due.of_entry harranged h.mem
  obtain ⟨place, hplace⟩ := List.mem_iff_getElem?.mp houtput
  refine hinherited output _ (h.pins .output place output (by decide) hplace) ?_
  rintro far ⟨pair, hpair, driver, hdriver, houtputRole, hdrives, hfar⟩
  obtain ⟨i, hi⟩ := List.mem_iff_getElem?.mp hpair
  -- live is what no clocked input leads to
  refine (h.due_outputs harranged 0 (fun vertex => ∀ input,
    gate.component.isInputClocked input = true →
      ¬ Relation.ReflTransGen (Dependency (pairs.map Prod.fst)) (.input input) vertex)
    (fun a b hdependency hlive input hclocked hpath =>
      hlive input hclocked (hpath.tail hdependency))
    (fun index hlive node hnode => ?_) hi (fun input hclocked hpath => ?_) far
    (List.mem_of_getElem? hfar)).mono ?_
  · refine (harranged.due_unclocked gate h.mem index node hnode ?_).mono (Nat.zero_le _)
    rw [Bool.eq_false_iff]
    exact fun hclocked => hlive index hclocked .refl
  · exact h.cutOff input hclocked place (List.getElem?_eq_some_iff.mp hplace).1
      (hpath.tail (.drive (List.mem_map_of_mem hpair) hdriver houtputRole hdrives))
  · have hlt := (List.getElem?_eq_some_iff.mp hi).1
    omega

/-- After the second round everything that the parts of a gate read is due. -/
theorem due_part_inputs (harranged : Arranged drivers entries root)
    {pair : Part Component × Gate} (hpair : pair ∈ pairs) :
    ∀ node ∈ pair.2.inputs, Due drivers gate (2 * pairs.length) node := by
  intro node hnode
  obtain ⟨position, hposition⟩ := List.mem_iff_getElem?.mp hnode
  have hinherited := Due.inherited harranged h.mem (2 * pairs.length)
  have hentries := h.due_inputs harranged
  refine hinherited node _ (h.inputs pair hpair position node hposition) ?_
  rintro source ⟨wire, -, -, -, role, index, -, -, hsource⟩
  by_cases hrole : role = .input
  · subst hrole
    exact (hentries source (List.mem_of_getElem? hsource)).mono (by omega)
  · refine hinherited source _ (h.pins role index source hrole hsource) ?_
    rintro far ⟨other, hother, driver, hdriver, houtputRole, hdrives, hfar⟩
    obtain ⟨j, hj⟩ := List.mem_iff_getElem?.mp hother
    have hlt := (List.getElem?_eq_some_iff.mp hj).1
    refine (h.due_outputs harranged 1 (fun _ => True) (fun _ _ _ _ => trivial)
      (fun index _ entry hentry => ?_) hj trivial far (List.mem_of_getElem? hfar)).mono (by omega)
    rw [Nat.one_mul]
    exact hentries entry (List.mem_of_getElem? hentry)

end Interior

/-- Which nodes can no longer change from some time on, while the parts of a gate are visited in
turn. When as many visits as two rounds have are over, these are all nodes that the parts read. -/
structure Schedule (netlist : Netlist) (gate : Gate) (due : Nat → Nat → Prop) : Prop where
  mono : ∀ {time later node : Nat}, due time node → time ≤ later → due later node
  links : ∀ {time source : Nat} {link : Link}, netlist.Leads source link →
    due time link.target → due time source
  reads : ∀ {time : Nat} {site : Site} {kind : Primitive},
    .builtIn site (.primitive kind) ∈ gate.all → ∀ node ∈ site.outputs, due time node →
    ∀ (position input : Nat), site.inputs[position]? = some input →
      kind.component.isInputClocked position = false → due time input
  start : ∀ {site : Site} {spec : ChipSpec}, .builtIn site spec ∈ gate.all →
    ∀ node ∈ site.outputs, ¬ due 0 node
  /-- On a visit, only what the part around it drives falls due. -/
  step : ∀ {visit position : Nat} {part : Gate}, gate.parts[position]? = some part →
    position ≠ visit % gate.parts.length → ∀ {site : Site} {spec : ChipSpec},
    .builtIn site spec ∈ part.all → ∀ node ∈ site.outputs, due (visit + 1) node → due visit node
  ends : ∀ part ∈ gate.parts, ∀ node ∈ part.inputs, due (2 * gate.parts.length) node

namespace Arranged

/-- Where two built in gates have an output in common they are one. -/
theorem builtIn_eq (h : Arranged drivers entries root) {site site' : Site} {spec spec' : ChipSpec}
    (hgate : .builtIn site spec ∈ root.all) (hgate' : .builtIn site' spec' ∈ root.all) {node : Nat}
    (hnode : node ∈ site.outputs) (hnode' : node ∈ site'.outputs) :
    Gate.builtIn site spec = .builtIn site' spec' := by
  cases h.laid.of_mem_all hgate' with
  | builtIn _ _ _ _ _ honly =>
    have hsame := honly (.gate (.builtIn site spec)) node (h.drives _ hgate) hnode hnode'
    rwa [Driver.gate.injEq] at hsame

/-- What a built in gate inside a gate drives falls due on a visit to the part around it. -/
theorem exists_visit (h : Arranged drivers entries root) (hgate : gate ∈ root.all) {site : Site}
    {spec : ChipSpec} (hinner : .builtIn site spec ∈ gate.all) {time node : Nat}
    (hnode : node ∈ site.outputs) (hdue : Due drivers gate time node) :
    ∃ visit part kind, visit < time ∧ gate.parts[visit % gate.parts.length]? = some part ∧
      spec = .primitive kind ∧ .builtIn site (.primitive kind) ∈ part.all ∧
      ∀ (position input : Nat), site.inputs[position]? = some input →
        kind.component.isInputClocked position = false → Due drivers gate (visit + 1) input := by
  cases hdue with
  | still hundriven _ => exact absurd hnode (hundriven _ hinner)
  | visited hpart hinner' hnode' hvisit hinputs =>
    have hpartMem := Gate.mem_all_of_part (List.mem_of_getElem? hpart)
    have hsame := h.builtIn_eq (Gate.mem_all_trans hinner' (Gate.mem_all_trans hpartMem hgate))
      (Gate.mem_all_trans hinner hgate) hnode' hnode
    rw [Gate.builtIn.injEq] at hsame
    obtain ⟨rfl, rfl⟩ := hsame
    exact ⟨_, _, _, hvisit, hpart, rfl, hinner', hinputs⟩

/-- When nodes are due is a schedule, where links are those of the drivers. -/
theorem schedule (h : Arranged drivers entries root) (hgate : gate ∈ root.all) {netlist : Netlist}
    (hlinks : ∀ source link, netlist.Leads source link → ∃ bits targetBits,
      drivers (.statement (.link source bits link.target targetBits))) :
    Schedule netlist gate (Due drivers gate) where
  mono hdue hle := hdue.mono hle
  links {time source link} hlead hdue := by
    obtain ⟨bits, targetBits, hlink⟩ := hlinks source link hlead
    cases hdue with
    | still _ hlinks => exact hlinks source bits targetBits hlink
    | visited hpart hinner hnode _ _ =>
      have hmem := Gate.mem_all_trans hinner
        (Gate.part_mem_all hgate (List.mem_of_getElem? hpart))
      cases h.laid.of_mem_all hmem with
      | builtIn _ _ _ _ _ honly => cases honly _ _ hlink rfl hnode
  reads hinner node hnode hdue position input hinput hclocked := by
    obtain ⟨visit, part, _, hvisit, -, hkind, -, hinputs⟩ := h.exists_visit hgate hinner hnode hdue
    obtain rfl := ChipSpec.primitive.inj hkind
    exact (hinputs position input hinput hclocked).mono hvisit
  start hinner node hnode hdue := by
    obtain ⟨visit, -, -, hvisit, -⟩ := h.exists_visit hgate hinner hnode hdue
    exact Nat.not_lt_zero _ hvisit
  step {visit position part} hpart hne {site spec} hinner node hnode hdue := by
    have hpartMem := Gate.mem_all_of_part (List.mem_of_getElem? hpart)
    obtain ⟨earlier, part', kind, hearlier, hpart', rfl, hinner', hinputs⟩ :=
      h.exists_visit hgate (Gate.mem_all_trans hinner hpartMem) hnode hdue
    refine .visited hpart' hinner' hnode (Nat.lt_of_le_of_ne (Nat.le_of_lt_succ hearlier) ?_)
      hinputs
    rintro rfl
    exact hne (Gate.position_eq_of_mem_all (h.distinct.inside hgate).parts hpart hpart' hinner
      hinner')
  ends part hpart node hnode := by
    cases gate with
    | builtIn => cases hpart
    | composite site internals gates =>
      obtain ⟨pairs, hinterior⟩ := h.exists_interior hgate
      rw [hinterior.parts] at hpart
      obtain ⟨pair, hpair, rfl⟩ := List.mem_map.mp hpart
      rw [hinterior.parts, List.length_map]
      exact hinterior.due_part_inputs h hpair node hnode

end Arranged

namespace Component

variable {sharing : Bool} {component : Component} {width : Nat → Nat} {draft : Draft}

theorem Drafted.arranged (h : Drafted sharing component width draft) (hsorted : component.Sorted) :
    Arranged (component.rootPlaced sharing).Has
      (· ∈ (component.rootPlaced sharing).result.inputs)
      (component.rootPlaced sharing).result where
  laid := root_laid sharing h.wellWired
  distinct := by
    rw [Gate.Distinct, root_isPlaced.indices]
    exact List.nodup_range'
  sorted := by
    rw [root_isPlaced.component_eq]
    exact hsorted
  drives _ hinner := hinner
  undriven _ _ hdriver hdrives := not_entry h.wellWired.fitted hdriver hdrives

/-- Every gate of a sorted component has a schedule. -/
theorem Drafted.exists_schedule (h : Drafted sharing component width draft)
    (hsorted : component.Sorted) {gate : Gate}
    (hgate : gate ∈ (component.rootPlaced sharing).result.all) :
    ∃ due, Schedule draft.netlist gate due := by
  refine ⟨_, (h.arranged hsorted).schedule hgate fun source link hlead => ?_⟩
  obtain ⟨bits, target, targetBits, hhas, rfl⟩ := h.rendered.leads_iff.mp hlead
  exact ⟨bits, targetBits, hhas⟩

end Component

end ClockedLogic
