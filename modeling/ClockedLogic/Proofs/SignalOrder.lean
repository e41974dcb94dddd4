import ClockedLogic.Proofs.Spread

/-!
Signals cannot run in circles. A node feeds another through a link, or through a built in gate
from an input that is not clocked to an output. The order of the vertices that each component was
checked for, one level at a time, makes this relation well founded over all levels: what comes
out of a component can only depend on inputs that it did not find to be clocked.
-/

namespace ClockedLogic

variable {drivers : Driver → Prop} {entries : Nat → Prop}

inductive Feeds (drivers : Driver → Prop) (node : Nat) : Nat → Prop where
  | link {bits targetBits : Option BitSpan} {target : Nat}
    (h : drivers (.statement (.link node bits target targetBits))) : Feeds drivers node target
  | gate {site : Site} {kind : Primitive} {position output : Nat}
    (h : drivers (.gate (.builtIn site (.primitive kind))))
    (hinput : site.inputs[position]? = some node)
    (hclocked : kind.component.isInputClocked position = false) (houtput : output ∈ site.outputs) :
    Feeds drivers node output

abbrev Grounded (drivers : Driver → Prop) (node : Nat) : Prop := Acc (Feeds drivers) node

theorem Follows.grounded {node : Nat} {origin : Nat → Prop}
    (h : Follows drivers entries node origin)
    (horigin : ∀ source, origin source → Grounded drivers source) : Grounded drivers node := by
  rcases h with hsame | ⟨-, hdrivers⟩
  · exact horigin node hsame
  · refine .intro node fun source hfeeds => ?_
    cases hfeeds with
    | link hlink => exact horigin source (hdrivers _ hlink rfl)
    | gate hgate _ _ houtput => exact (hdrivers _ hgate houtput).elim

def Inherited (drivers : Driver → Prop) (entries : Nat → Prop) (good : Nat → Prop) : Prop :=
  ∀ node origin, Follows drivers entries node origin → (∀ source, origin source → good source) →
    good node

theorem inherited_grounded : Inherited drivers entries (Grounded drivers) :=
  fun _ _ h horigin => h.grounded horigin

variable {good : Nat → Prop}

/-- The nodes of a vertex: those of a pin, or those at the outputs of a part. -/
def VertexHolds (good : Nat → Prop) (owner : Gate) (pairs : List (Part Component × Gate)) :
    Vertex → Prop
  | .root => True
  | .input index => ∀ node, owner.inputs[index]? = some node → good node
  | .output index => ∀ node, owner.outputs[index]? = some node → good node
  | .internal index => ∀ node, owner.internals[index]? = some node → good node
  | .part position => ∀ pair ∈ pairs, pair.1.position = position →
    ∀ node ∈ pair.2.outputs, good node

theorem vertexHolds_pin {owner : Gate} {pairs : List (Part Component × Gate)} {role : PinRole}
    {index : Nat} : VertexHolds good owner pairs (role.vertex index) ↔
      ∀ node, (owner.nodesOf role)[index]? = some node → good node := by
  cases role <;> exact Iff.rfl

/-- What a gate promises: if something holds of its inputs that are not clocked, then also of its
outputs. -/
def Gate.PassesOn (good : Nat → Prop) (gate : Gate) : Prop :=
  (∀ position node, gate.inputs[position]? = some node →
    gate.component.isInputClocked position = false → good node) →
  ∀ node ∈ gate.outputs, good node

/-- Inside a gate, something holds of the live vertices, where life comes from live vertices only
and it holds of live inputs. -/
theorem vertexHolds {owner : Gate} {pairs : List (Part Component × Gate)}
    (hgood : Inherited drivers entries good)
    (hsame : ∀ pair ∈ pairs, pair.2.component = pair.1.component)
    (hinputs : ∀ pair ∈ pairs, ∀ (position node : Nat), pair.2.inputs[position]? = some node →
      Follows drivers entries node (Reads owner pair.1 position))
    (hpins : ∀ role index node, role ≠ .input → (owner.nodesOf role)[index]? = some node →
      Follows drivers entries node (Writes pairs role index))
    (hpasses : ∀ pair ∈ pairs, pair.2.PassesOn good)
    (hranked : ∃ rank : Vertex → Nat, ∀ a b, Dependency (pairs.map Prod.fst) a b → rank a < rank b)
    (live : Vertex → Prop) (hback : ∀ a b, Dependency (pairs.map Prod.fst) a b → live b → live a)
    (hlive : ∀ index, live (.input index) → ∀ node, owner.inputs[index]? = some node → good node)
    (vertex : Vertex) (hvertex : live vertex) : VertexHolds good owner pairs vertex := by
  obtain ⟨rank, hrank⟩ := hranked
  induction hn : rank vertex using Nat.strongRecOn generalizing vertex with
  | ind n ih =>
    subst hn
    have hbefore : ∀ a, Dependency (pairs.map Prod.fst) a vertex → VertexHolds good owner pairs a :=
      fun a h => ih (rank a) (hrank a vertex h) a (hback a vertex h hvertex) rfl
    -- a pin that is no input takes its value from parts that come before it
    have hpin : ∀ role index, role ≠ .input → vertex = role.vertex index →
        ∀ node, (owner.nodesOf role)[index]? = some node → good node := by
      intro role index hrole hsame node hnode
      subst hsame
      refine hgood node _ (hpins role index node hrole hnode) ?_
      intro source hexists
      obtain ⟨pair, hpair, wire, hwire, hwireRole, hwireOwner, hsource⟩ := hexists
      exact hbefore _ (.drive (List.mem_map_of_mem hpair) hwire hwireRole hwireOwner) pair hpair rfl
        source (List.mem_of_getElem? hsource)
    cases vertex with
    | root => trivial
    | input index => exact hlive index hvertex
    | output index => exact hpin .output index (by decide) rfl
    | internal index => exact hpin .internal index (by decide) rfl
    | part position =>
      intro pair hpair hsame
      subst hsame
      apply hpasses pair hpair
      intro input node hnode hclocked
      refine hgood node _ (hinputs pair hpair input node hnode) ?_
      intro source hexists
      obtain ⟨wire, hwire, hwireRole, rfl, role, index, -, hwireOwner, hsource⟩ := hexists
      rw [hsame pair hpair] at hclocked
      exact vertexHolds_pin.mp (hbefore _ (.read (List.mem_map_of_mem hpair) hwire hwireRole
        hwireOwner hclocked)) source hsource

/-- What all built in gates inside a gate pass on, the gate passes on: no output depends on a
clocked input without a clock edge in between. -/
theorem Laid.passesOn {gate : Gate} (h : Laid drivers entries gate)
    (hgood : Inherited drivers entries good)
    (hgates : ∀ site kind, .builtIn site (.primitive kind) ∈ gate.all →
      (Gate.builtIn site (.primitive kind)).PassesOn good) : gate.PassesOn good := by
  induction h with
  | builtIn => exact hgates _ _ (Gate.mem_all_self _)
  | @composite site internals gates pairs interface pins parts dependencies hcomponent houtputs
      hparts hpairs hwiring _ hsame hfollowInputs hpins ih =>
    intro hinputs node hnode
    subst hparts
    obtain ⟨index, hindex⟩ := List.mem_iff_getElem?.mp hnode
    have hbound : index < interface.outputs.length := by
      rw [← houtputs]
      exact (List.getElem?_eq_some_iff.mp hindex).1
    have hclockedEq : ∀ input,
        (Gate.composite site internals gates).component.isInputClocked input =
          interface.clockedInputs.getD input false := by
      intro input
      rw [Gate.component, Gate.site, hcomponent]
      rfl
    have hinside : ∀ pair ∈ pairs, pair.2 ∈ (Gate.composite site internals gates).parts :=
      fun pair hpair => hpairs ▸ List.mem_map_of_mem hpair
    have hpasses : ∀ pair ∈ pairs, pair.2.PassesOn good := fun pair hpair =>
      ih pair hpair fun site' kind hinner =>
        hgates site' kind (Gate.mem_all_iff.mpr (.inr ⟨pair.2, hinside pair hpair, hinner⟩))
    -- live is what no clocked input leads to
    refine vertexHolds hgood hsame hfollowInputs hpins hpasses hwiring.ranked
      (fun vertex => ∀ input, interface.clockedInputs.getD input false = true →
        ¬ Relation.ReflTransGen (Dependency (pairs.map Prod.fst)) (.input input) vertex)
      ?_ ?_ (.output index) (fun input hclocked => hwiring.cutOff input hclocked index hbound) node
      hindex
    · intro a b hdependency hlive input hclocked hpath
      exact hlive input hclocked (hpath.tail hdependency)
    · intro input hlive source hsource
      apply hinputs input source hsource
      rw [hclockedEq, Bool.eq_false_iff]
      exact fun hclocked => hlive input hclocked .refl

theorem Laid.passesOn_grounded {site : Site} {kind : Primitive}
    (h : Laid drivers entries (.builtIn site (.primitive kind))) :
    (Gate.builtIn site (.primitive kind)).PassesOn (Grounded drivers) := by
  cases h with
  | builtIn hcomponent _ _ _ _ honly =>
    intro hinputs node hnode
    refine .intro node fun source hfeeds => ?_
    cases hfeeds with
    | link hlink => cases honly _ _ hlink rfl hnode
    | gate hgate hinput hclocked houtput =>
      have hsame := honly _ _ hgate houtput hnode
      simp only [Driver.gate.injEq, Gate.builtIn.injEq, ChipSpec.primitive.injEq] at hsame
      obtain ⟨rfl, rfl⟩ := hsame
      apply hinputs _ source hinput
      rw [Gate.component, Gate.site, hcomponent]
      exact hclocked

/-- No output of a gate depends on a clocked input of the gate without a clock edge in between. -/
theorem Laid.groundsOutputs {gate : Gate} (h : Laid drivers entries gate) :
    gate.PassesOn (Grounded drivers) :=
  h.passesOn inherited_grounded fun _ _ hinner => (h.of_mem_all hinner).passesOn_grounded

/-- If all inputs of a gate are grounded, so are all pins inside. -/
theorem Laid.grounded_pins {gate : Gate} (h : Laid drivers entries gate)
    (hinputs : ∀ node ∈ gate.inputs, Grounded drivers node) :
    ∀ inner ∈ gate.all, ∀ role, ∀ node ∈ inner.nodesOf role, Grounded drivers node := by
  induction h with
  | builtIn hcomponent hin hout hnodup hentries honly =>
    intro inner hinner role node hnode
    rw [Gate.all, List.mem_singleton] at hinner
    subst hinner
    have hlaid : Laid drivers entries _ :=
      .builtIn hcomponent hin hout hnodup hentries honly
    cases role with
    | input => exact hinputs node hnode
    | output =>
      exact hlaid.groundsOutputs (fun _ _ h _ => hinputs _ (List.mem_of_getElem? h)) node hnode
    | internal => cases hnode
  | @composite site internals gates pairs interface pins parts dependencies hcomponent houtputs
      hparts hgates hwiring hlaid hsame hfollowInputs hpins ih =>
    subst hparts
    have hvertex := vertexHolds inherited_grounded hsame hfollowInputs hpins
      (fun pair hpair => (hlaid pair hpair).groundsOutputs) hwiring.ranked
      (fun _ => True) (fun _ _ _ _ => trivial)
      (fun index _ node hnode => hinputs node (List.mem_of_getElem? hnode))
    have hpin : ∀ role, ∀ node ∈ (Gate.composite site internals gates).nodesOf role,
        Grounded drivers node := by
      intro role node hnode
      obtain ⟨index, hindex⟩ := List.mem_iff_getElem?.mp hnode
      exact vertexHolds_pin.mp (hvertex (role.vertex index) trivial) node hindex
    intro inner hinner
    rw [Gate.all, List.mem_append, List.mem_singleton, Gate.allOf_eq_flatMap, List.mem_flatMap]
      at hinner
    rcases hinner with ⟨part, hpart, hinner⟩ | rfl
    · rw [hgates] at hpart
      obtain ⟨pair, hpair, rfl⟩ := List.mem_map.mp hpart
      refine ih pair hpair (fun node hnode => ?_) inner hinner
      obtain ⟨position, hposition⟩ := List.mem_iff_getElem?.mp hnode
      refine (hfollowInputs pair hpair position node hposition).grounded ?_
      intro source hexists
      obtain ⟨_, _, _, _, role, index, _, _, hsource⟩ := hexists
      exact hpin role source (List.mem_of_getElem? hsource)
    · exact hpin

end ClockedLogic
