import ClockedLogic.Circuit.Evaluation
import ClockedLogic.Proofs.GateTree
import ClockedLogic.Proofs.Writing

/-!
Honest states. A gate that is not dirty is calm: a built in gate shows what its chip answers, and
no part of a composite gate is dirty. Gates that are being evaluated are open and need not be calm.
Giving a node a value keeps a state honest, as long as all gates around the place are open or
dirty: a change that gets to other parts makes their owners dirty as well.
-/

namespace ClockedLogic

namespace State

/-- Whether the outputs of a built in gate are what its chip answers to its inputs. -/
def Settled (state : State) (site : Site) : Prop :=
  ∀ chip, state.chip? site.index = some chip →
    chip.respond (state.read site.inputs) (state.read site.outputs) = state.read site.outputs

/-- Whether there is nothing to do inside a gate. -/
def Calm (state : State) : Gate → Prop
  | .builtIn site _ => state.Settled site
  | .composite _ _ parts => ∀ part ∈ parts, state.isDirty part.index = false

theorem read_congr {before after : State} {nodes : List Nat}
    (h : ∀ node ∈ nodes, after.value node = before.value node) :
    after.read nodes = before.read nodes := List.map_congr_left h

theorem getElem?_read (state : State) (nodes : List Nat) (position : Nat) :
    (state.read nodes)[position]? = nodes[position]?.map state.value := List.getElem?_map ..

@[simp] theorem length_read (state : State) (nodes : List Nat) :
    (state.read nodes).length = nodes.length := List.length_map _

end State

/-- Whether all gates that are neither open nor dirty are calm. -/
def Honest (root : Gate) (opened : Nat → Prop) (state : State) : Prop :=
  ∀ gate ∈ root.all, ¬ opened gate.index → state.isDirty gate.index = false → state.Calm gate

/-- Whether all gates around a gate, and the gate itself, are open or dirty. -/
def Covered (root : Gate) (opened : Nat → Prop) (state : State) (inner : Gate) : Prop :=
  ∀ gate ∈ root.all, inner ∈ gate.all → opened gate.index ∨ state.isDirty gate.index = true

variable {root : Gate} {draft : Draft} {opened : Nat → Prop} {before after : State}

theorem Fabric.distinct (fabric : Fabric root draft) : root.Distinct := by
  rw [Gate.Distinct, fabric.indices]
  exact List.nodup_range

theorem Covered.mono {inner : Gate} (h : Covered root opened before inner)
    (hflags : ∀ index, before.isDirty index = true → after.isDirty index = true) :
    Covered root opened after inner :=
  fun gate hgate hinner => (h gate hgate hinner).imp_right (hflags gate.index)

/-- A gate with a changed input is dirty. -/
theorem Changes.isDirty_of_input (fabric : Fabric root draft) {origin : Nat}
    (h : Changes root draft origin before after) {gate : Gate} (hgate : gate ∈ root.all)
    {node : Nat}
    (hnode : node ∈ gate.inputs) (hchanged : after.value node ≠ before.value node) :
    after.isDirty gate.index = true :=
  (h.flags gate.index).mpr
    (.inr ⟨node, (fabric.listens node gate.index).mpr ⟨gate, hgate, rfl, hnode⟩,
    hchanged⟩)

/-- A change of a node inside a circuit does not make the circuit itself dirty. -/
theorem Changes.isDirty_root (fabric : Fabric root draft) {origin : Nat}
    (h : Changes root draft origin before after) (horigin : origin ∉ root.inputs)
    (hdirty : after.isDirty root.index = true) : before.isDirty root.index = true := by
  rcases (h.flags root.index).mp hdirty with hbefore | ⟨node, hlistens, hchanged⟩
  · exact hbefore
  · obtain ⟨gate, hgate, hindex, hnode⟩ := (fabric.listens node root.index).mp hlistens
    obtain rfl := fabric.distinct.eq hgate root.mem_all_self hindex
    refine absurd (h.value_eq fabric (.inl hnode) ?_) hchanged
    intro hsame
    subst hsame
    exact horigin hnode

/-- A gate that is clean after a change was clean before, and its inputs have not changed. -/
theorem Changes.clean_before (fabric : Fabric root draft) {origin : Nat}
    (h : Changes root draft origin before after) {gate : Gate} (hgate : gate ∈ root.all)
    (hclean : after.isDirty gate.index = false) : before.isDirty gate.index = false ∧
      ∀ node ∈ gate.inputs, after.value node = before.value node := by
  refine ⟨?_, fun node hnode => ?_⟩
  · rw [Bool.eq_false_iff]
    intro hdirty
    rw [(h.flags gate.index).mpr (.inl hdirty)] at hclean
    cases hclean
  · by_contra hchanged
    rw [h.isDirty_of_input fabric hgate hnode hchanged] at hclean
    cases hclean

/-- A built in gate stays settled if neither its inputs change nor one of its outputs is given a
value. -/
theorem Changes.settled (fabric : Fabric root draft) {origin : Nat}
    (h : Changes root draft origin before after) {site : Site} {chip : ChipSpec}
    (hgate : .builtIn site chip ∈ root.all) (hout : origin ∉ site.outputs)
    (hinputs : ∀ node ∈ site.inputs, after.value node = before.value node)
    (hsettled : before.Settled site) : after.Settled site := by
  have houtputs : ∀ node ∈ site.outputs, after.value node = before.value node := by
    intro node hnode
    apply h.value_eq fabric (.inr ⟨site, chip, hgate, hnode⟩)
    intro hsame
    subst hsame
    exact hout hnode
  intro found hfound
  rw [State.read_congr hinputs, State.read_congr houtputs]
  apply hsettled found
  rw [State.chip?, ← h.chips]
  exact hfound

/-- The parts of a gate stay clean if its inputs do not change and no node inside is given a
value. -/
theorem Changes.parts_clean (fabric : Fabric root draft) {origin : Nat}
    (h : Changes root draft origin before after) (hsets : root.Sets origin) {owner : Gate}
    (howner : owner ∈ root.all)
    (houtside : ∀ site chip, .builtIn site chip ∈ owner.all → origin ∉ site.outputs)
    (hinputs : ∀ node ∈ owner.inputs, after.value node = before.value node) {part : Gate}
    (hpart : part ∈ owner.parts) (hclean : before.isDirty part.index = false) :
    after.isDirty part.index = false := by
  rw [Bool.eq_false_iff]
  intro hdirty
  rcases (h.flags part.index).mp hdirty with hbefore | ⟨node, hlistens, hchanged⟩
  · rw [hclean] at hbefore
    cases hbefore
  · obtain ⟨found, hfound, hindex, hnode⟩ := (fabric.listens node part.index).mp hlistens
    obtain rfl := fabric.distinct.eq hfound
      (Gate.part_mem_all howner hpart) hindex
    obtain ⟨input, hinput, hinputChanged⟩ := fabric.spread _ howner found hpart origin
      (fun reached => after.value reached ≠ before.value reached) hsets houtside h.spread node
      hnode hchanged
    exact hinputChanged (hinputs input hinput)

/-- Giving a node a value keeps a state honest. -/
theorem Honest.changes (fabric : Fabric root draft) (hhonest : Honest root opened before)
    {origin : Nat} (hsets : root.Sets origin) (h : Changes root draft origin before after)
    (hcovered : ∀ site chip, .builtIn site chip ∈ root.all → origin ∈ site.outputs →
      Covered root opened before (.builtIn site chip)) : Honest root opened after := by
  intro gate hgate hopened hclean
  obtain ⟨hcleanBefore, hinputs⟩ := h.clean_before fabric hgate hclean
  have houtside : ∀ site chip, .builtIn site chip ∈ gate.all → origin ∉ site.outputs := by
    intro site chip hinner hout
    rcases hcovered site chip (Gate.mem_all_trans hinner hgate) hout gate hgate hinner with
      hopen | hdirty
    · exact hopened hopen
    · rw [hdirty] at hcleanBefore
      cases hcleanBefore
  have hcalm := hhonest gate hgate hopened hcleanBefore
  cases gate with
  | builtIn site chip =>
    exact h.settled fabric hgate (houtside site chip (Gate.mem_all_self _)) hinputs hcalm
  | composite site internals parts =>
    exact fun part hpart =>
      h.parts_clean fabric hsets hgate houtside hinputs hpart (hcalm part hpart)

/-- What becomes of a state when a built in gate gives values to some of its outputs. -/
structure Written (root : Gate) (draft : Draft) (nodes : List Nat) (values : List Word)
    (before after : State) : Prop where
  sane : Sane root draft after
  chips : after.chips = before.chips
  written : ∀ (position node : Nat), nodes[position]? = some node →
    values[position]? = some (after.value node)
  frame : ∀ node, root.Sets node → node ∉ nodes → after.value node = before.value node
  flags : ∀ index, before.isDirty index = true → after.isDirty index = true
  /-- A gate with a changed input is dirty. -/
  heard : ∀ gate ∈ root.all, ∀ node ∈ gate.inputs, after.value node ≠ before.value node →
    after.isDirty gate.index = true
  root_flag : (∀ node ∈ nodes, node ∉ root.inputs) → after.isDirty root.index = true →
    before.isDirty root.index = true
  /-- If only values for nodes of some level on are new, only such nodes change. -/
  still : ∀ level : Nat → Nat,
    (∀ source link, draft.netlist.Leads source link → level source < level link.target) →
    ∀ bound, (∀ (position node : Nat), nodes[position]? = some node → level node < bound →
      values[position]? = some (before.value node)) →
    ∀ node, level node < bound → after.value node = before.value node
  honest : ∀ opened, Honest root opened before →
    (∀ site chip, .builtIn site chip ∈ root.all → (∃ node ∈ nodes, node ∈ site.outputs) →
      Covered root opened before (.builtIn site chip)) → Honest root opened after
  takes : before.signals.Takes draft.netlist (nodes.zip values) after.signals

theorem Changes.level_le {level : Nat → Nat}
    (hlevel : ∀ source link, draft.netlist.Leads source link → level source < level link.target)
    {origin : Nat} (h : Changes root draft origin before after) {node : Nat}
    (hchanged : after.value node ≠ before.value node) : level origin ≤ level node := by
  induction hn : level node using Nat.strongRecOn generalizing node with
  | ind n ih =>
    subst hn
    rcases h.spread node hchanged with rfl | ⟨source, link, hlink, rfl, hsource⟩
    · exact Nat.le_refl _
    · have hlt := hlevel source link hlink
      exact Nat.le_trans (ih _ hlt hsource rfl) (Nat.le_of_lt hlt)

theorem State.write_cons (netlist : Netlist) (state : State) (node : Nat) (nodes : List Nat)
    (value : Word) (values : List Word) :
    state.write netlist (node :: nodes) (value :: values) =
      (state.put netlist node value).write netlist nodes values := by
  simp only [write, put, Signals.setAll, List.zip_cons_cons, List.foldl_cons]

theorem Written.refl (hsane : Sane root draft before) : Written root draft [] [] before before where
  sane := hsane
  chips := rfl
  written _ _ h := by simp at h
  frame _ _ _ := rfl
  flags _ h := h
  heard _ _ _ _ h := absurd rfl h
  root_flag _ h := h
  still _ _ _ _ _ _ := rfl
  honest _ h _ := h
  takes := .nil

theorem Written.cons (fabric : Fabric root draft) {node : Nat} {nodes : List Nat} {value : Word}
    {values : List Word} {middle : State} (hsets : root.Sets node) (hnode : node ∉ nodes)
    (hfirst : Changes root draft node before middle) (hvalue : middle.value node = value)
    (hsame : before.value node = value → middle = before)
    (htakes : ∀ rest after, middle.signals.Takes draft.netlist rest after →
      before.signals.Takes draft.netlist ((node, value) :: rest) after)
    (hrest : Written root draft nodes values middle after) :
    Written root draft (node :: nodes) (value :: values) before after := by
  have hflags : ∀ index, before.isDirty index = true → middle.isDirty index = true :=
    fun index hdirty => (hfirst.flags index).mpr (.inl hdirty)
  refine ⟨hrest.sane, hrest.chips.trans hfirst.chips, ?_, ?_,
    fun index hdirty => hrest.flags index (hflags index hdirty), ?_, ?_, ?_, ?_, ?_⟩
  · rintro (_ | position) other hother
    · rw [← Option.some.inj hother, hrest.frame node hsets hnode, hvalue]
      rfl
    · exact hrest.written position other hother
  · intro other hother hnotMem
    rw [List.mem_cons, not_or] at hnotMem
    rw [hrest.frame other hother hnotMem.2, hfirst.value_eq fabric hother hnotMem.1]
  · intro gate hgate input hinput hchanged
    by_cases hkept : middle.value input = before.value input
    · exact hrest.heard gate hgate input hinput (by rwa [hkept])
    · exact hrest.flags _ (hfirst.isDirty_of_input fabric hgate hinput hkept)
  · intro hentries hdirty
    apply hfirst.isDirty_root fabric (hentries node List.mem_cons_self)
    exact hrest.root_flag
      (fun other hother => hentries other (List.mem_cons_of_mem _ hother)) hdirty
  · intro level hlevel bound hold other hother
    have hkept : ∀ reached, level reached < bound →
        middle.value reached = before.value reached := by
      intro reached hreached
      by_contra hchanged
      have hle := hfirst.level_le hlevel hchanged
      have hold := Option.some.inj (hold 0 node rfl (Nat.lt_of_le_of_lt hle hreached))
      rw [hsame hold.symm] at hchanged
      exact hchanged rfl
    rw [hrest.still level hlevel bound (fun position reached hreached hlt => ?_) other hother,
      hkept other hother]
    rw [hkept reached hlt]
    exact hold (position + 1) reached hreached hlt
  · intro opened hhonest hcovered
    refine hrest.honest opened (hhonest.changes fabric hsets hfirst fun site chip hgate hout =>
      hcovered site chip hgate ⟨node, List.mem_cons_self, hout⟩) ?_
    intro site chip hgate hexists
    obtain ⟨other, hother, hout⟩ := hexists
    exact (hcovered site chip hgate ⟨other, List.mem_cons_of_mem _ hother, hout⟩).mono hflags
  · rw [List.zip_cons_cons]
    exact htakes _ _ hrest.takes

/-- A built in gate gives values to its outputs one after the other. -/
theorem written_write (fabric : Fabric root draft) (hsane : Sane root draft before)
    {nodes : List Nat} {values : List Word} (hnodes : ∀ node ∈ nodes, root.Sets node)
    (hnodup : nodes.Nodup) (hlength : values.length = nodes.length) :
    Written root draft nodes values before (before.write draft.netlist nodes values) := by
  induction nodes generalizing before values with
  | nil =>
    rw [List.eq_nil_of_length_eq_zero hlength]
    exact .refl hsane
  | cons node nodes ih =>
    cases values with
    | nil => cases hlength
    | cons value values =>
      obtain ⟨hnotMem, hnodup⟩ := List.nodup_cons.mp hnodup
      have hsets := hnodes node List.mem_cons_self
      obtain ⟨hfirst, hvalue, htakes⟩ := changes_set fabric hsane hsets value
      have hsame : before.value node = value → before.put draft.netlist node value = before := by
        intro hsame
        subst hsame
        exact before.put_value _ _
      rw [State.write_cons]
      refine .cons fabric hsets hnotMem hfirst hvalue hsame htakes ?_
      exact ih hfirst.sane (fun other hother => hnodes other (List.mem_cons_of_mem _ hother)) hnodup
        (Nat.succ.inj hlength)

end ClockedLogic
