import ClockedLogic.Proofs.Enduring

/-!
Nodes that are still while gates are brought up to date. The outputs of built in gates that are
still agree with what the gates answer, and what they depend on is still too, so giving the answers
once more does not touch them. Gates that only read still nodes do not become dirty on the way.
-/

namespace ClockedLogic

/-- Whether nodes that do not change keep everything that determines them from changing. -/
structure Closed (netlist : Netlist) (gate : Gate) (still : Nat → Prop) : Prop where
  links : ∀ {source : Nat} {link : Link}, netlist.Leads source link → still link.target →
    still source
  reads : ∀ {site : Site} {kind : Primitive}, .builtIn site (.primitive kind) ∈ gate.all →
    ∀ node ∈ site.outputs, still node → ∀ (position input : Nat),
    site.inputs[position]? = some input → kind.component.isInputClocked position = false →
    still input

/-- What becomes of a state when nodes that are still are given no new value. -/
structure Untouched (root : Gate) (draft : Draft) (still : Nat → Prop) (before after : State) :
    Prop where
  sane : Sane root draft after
  chips : after.chips = before.chips
  values : ∀ node, still node → after.value node = before.value node
  /-- Gates that only read such nodes do not become dirty. -/
  flags : ∀ gate ∈ root.all, (∀ node ∈ gate.inputs, still node) →
    after.isDirty gate.index = true → before.isDirty gate.index = true

variable {root gate : Gate} {draft : Draft} {still : Nat → Prop} {before now after : State}

/-- A change does not reach nodes that are still. -/
theorem Changes.value_eq_of_still (fabric : Fabric root draft)
    (hclosed : Closed draft.netlist gate still) {origin : Nat}
    (h : Changes root draft origin before after) (horigin : ¬ still origin) {node : Nat}
    (hstill : still node) : after.value node = before.value node := by
  obtain ⟨level, hlevel⟩ := fabric.levels
  by_contra hchanged
  induction hn : level node using Nat.strongRecOn generalizing node with
  | ind n ih =>
    subst hn
    rcases h.spread node hchanged with rfl | ⟨source, link, hlink, rfl, hsource⟩
    · exact horigin hstill
    · exact ih _ (hlevel.links source link hlink) (hclosed.links hlink hstill) hsource rfl

namespace Untouched

theorem refl (hsane : Sane root draft before) : Untouched root draft still before before :=
  ⟨hsane, rfl, fun _ _ => rfl, fun _ _ _ h => h⟩

theorem clean (h : Untouched root draft still before now) (index : Nat) :
    Untouched root draft still before (now.clean index) where
  sane := h.sane.clean index
  chips := h.chips
  values := h.values
  flags found hfound hstill hdirty := by
    rw [State.isDirty_clean, Bool.and_eq_true] at hdirty
    exact h.flags found hfound hstill hdirty.1

/-- A node is given a value, which is no new one if the node is still. -/
theorem put (fabric : Fabric root draft) (hclosed : Closed draft.netlist gate still)
    (h : Untouched root draft still before now) {node : Nat} (hsets : root.Sets node) {value : Word}
    (hkept : still node → now.value node = value) :
    Untouched root draft still before (now.put draft.netlist node value) := by
  by_cases hsame : now.value node = value
  · rw [← hsame, State.put_value]
    exact h
  · obtain ⟨hchanges, -⟩ := changes_set fabric h.sane hsets value
    have hvalues : ∀ other, still other →
        (now.put draft.netlist node value).value other = now.value other :=
      fun other => hchanges.value_eq_of_still fabric hclosed fun hstill => hsame (hkept hstill)
    refine ⟨hchanges.sane, hchanges.chips.trans h.chips,
      fun other hstill => (hvalues other hstill).trans (h.values other hstill),
      fun found hfound hstill hdirty => h.flags found hfound hstill ?_⟩
    rcases (hchanges.flags found.index).mp hdirty with hbefore | ⟨listened, hlistens, hchanged⟩
    · exact hbefore
    · obtain ⟨other, hother, hindex, hnode⟩ := (fabric.listens listened found.index).mp hlistens
      obtain rfl := fabric.distinct.eq hother hfound hindex
      exact absurd (hvalues listened (hstill listened hnode)) hchanged

theorem write (fabric : Fabric root draft) (hclosed : Closed draft.netlist gate still)
    {nodes : List Nat} (hnodes : ∀ node ∈ nodes, root.Sets node)
    (h : Untouched root draft still before now) {values : List Word}
    (hkept : ∀ (position node : Nat), nodes[position]? = some node → still node →
      values[position]? = some (before.value node)) :
    Untouched root draft still before (now.write draft.netlist nodes values) := by
  induction nodes generalizing now values with
  | nil => exact h
  | cons node nodes ih =>
    cases values with
    | nil => exact h
    | cons value values =>
      rw [State.write_cons]
      refine ih (fun other hother => hnodes other (List.mem_cons_of_mem _ hother))
        (h.put fabric hclosed (hnodes node List.mem_cons_self) fun hstill => ?_)
        fun position other hother => hkept (position + 1) other hother
      exact (h.values node hstill).trans (Option.some.inj (hkept 0 node rfl hstill)).symm

/-- Outputs that are still go on to agree. -/
theorem agrees (fabric : Fabric root draft) (hclosed : Closed draft.netlist gate still)
    (hgate : gate ∈ root.all) (hsane : Sane root draft before)
    (hagrees : Agrees still (· ∈ gate.all) before) (h : Untouched root draft still before now) :
    Agrees still (· ∈ gate.all) now :=
  hagrees.congr fabric hsane (fun _ hinner => Gate.mem_all_trans hinner hgate) h.chips
    (fun _ _ _ node _ => h.values node) fun _ _ hinner node hnode hstill position input hinput
      hclocked => h.values input (hclosed.reads hinner node hnode hstill position input hinput
        hclocked)

/-- What agrees is not touched when gates are brought up to date. -/
theorem lasts (fabric : Fabric root draft) (hclosed : Closed draft.netlist gate still)
    (hgate : gate ∈ root.all) (hsane : Sane root draft before)
    (hagrees : Agrees still (· ∈ gate.all) before) :
    Lasts gate draft.netlist (Untouched root draft still before) where
  clean h _ := h.clean _
  answer {now site spec} h hinner := by
    have hmem := Gate.mem_all_trans hinner hgate
    obtain ⟨kind, rfl, -, -, hlength, -⟩ := fabric.builtIns _ _ hmem
    obtain ⟨chip, hchip, hrealizes⟩ := h.sane.chips _ _ hmem
    have hanswer := hrealizes.respond_eq (now.read site.inputs) (now.read site.outputs)
      (by rw [State.length_read, hlength])
    simp only [State.respond, State.chip?_clean, hchip, State.read_clean, hanswer]
    refine (h.clean site.index).write fabric hclosed
      (fun node hnode => .inr ⟨site, _, hmem, hnode⟩) fun position node hnode hstill => ?_
    rw [← h.values node hstill]
    exact h.agrees fabric hclosed hgate hsane hagrees site kind chip hinner hchip position node
      hnode hstill

end Untouched

/-- Where all that is still agrees, bringing a gate up to date does not touch it. -/
theorem Agrees.untouched_eval (fabric : Fabric root draft)
    (hclosed : Closed draft.netlist gate still) (hgate : gate ∈ root.all) (hsane : Sane root draft before)
    (hagrees : Agrees still (· ∈ gate.all) before) (limit : Nat) {part : Gate}
    (hpart : part ∈ gate.all) :
    Untouched root draft still before (part.eval draft.netlist limit before) :=
  (Untouched.lasts fabric hclosed hgate hsane hagrees).eval limit hpart (.refl hsane)

theorem Agrees.untouched_evalAll (fabric : Fabric root draft)
    (hclosed : Closed draft.netlist gate still) (hgate : gate ∈ root.all)
    (hsane : Sane root draft before) (hagrees : Agrees still (· ∈ gate.all) before) (limit : Nat)
    {gates : List Gate} (hgates : ∀ part ∈ gates, part ∈ gate.all) :
    Untouched root draft still before (Gate.evalAll draft.netlist limit gates before) := by
  rw [Gate.evalAll_eq_foldl]
  exact List.foldlRecOn gates _ (.refl hsane) fun now hnow part hpart =>
    (Untouched.lasts fabric hclosed hgate hsane hagrees).eval limit (hgates part hpart) hnow

/-- A gate that only reads what is still is clean once it has been brought up to date. -/
theorem Agrees.isDirty_eval (fabric : Fabric root draft) (hclosed : Closed draft.netlist gate still)
    (hgate : gate ∈ root.all) (hsane : Sane root draft before)
    (hagrees : Agrees still (· ∈ gate.all) before) (limit : Nat) {part : Gate}
    (hpart : part ∈ gate.all) (hstill : ∀ node ∈ part.inputs, still node) :
    (part.eval draft.netlist limit before).isDirty part.index = false := by
  rw [Gate.eval]
  split
  · have hcleaned : Untouched root draft still (before.clean part.index)
        (part.refresh draft.netlist limit before) :=
      (Untouched.lasts fabric hclosed hgate (hsane.clean _) hagrees).refresh_clean limit hpart
        (.refl (hsane.clean _))
    rw [Bool.eq_false_iff]
    intro hdirty
    have hbefore := hcleaned.flags part (Gate.mem_all_trans hpart hgate) hstill hdirty
    rw [State.isDirty_clean_self] at hbefore
    cases hbefore
  · rename_i hclean
    exact Bool.eq_false_iff.mpr hclean

/-- Once gates only read what is still, bringing them up to date in order leaves all of them
clean. -/
theorem Agrees.isDirty_evalAll (fabric : Fabric root draft)
    (hclosed : Closed draft.netlist gate still) (hgate : gate ∈ root.all)
    (hsane : Sane root draft before) (hagrees : Agrees still (· ∈ gate.all) before) (limit : Nat)
    {gates : List Gate} (hgates : ∀ part ∈ gates, part ∈ gate.all)
    (hstill : ∀ part ∈ gates, ∀ node ∈ part.inputs, still node) :
    ∀ part ∈ gates, (Gate.evalAll draft.netlist limit gates before).isDirty part.index = false := by
  induction gates generalizing before with
  | nil => exact fun _ hpart => absurd hpart List.not_mem_nil
  | cons first gates ih =>
    have hfirst := hgates first List.mem_cons_self
    have hmoved := hagrees.untouched_eval fabric hclosed hgate hsane limit hfirst
    have hlater := hmoved.agrees fabric hclosed hgate hsane hagrees
    have hrest := fun part hpart => hgates part (List.mem_cons_of_mem first hpart)
    rw [Gate.evalAll_cons]
    intro part hpart
    rcases List.mem_cons.mp hpart with rfl | hpart
    · -- what the other gates do does not make it dirty again
      have hclean := hagrees.isDirty_eval fabric hclosed hgate hsane limit hfirst
        (hstill part List.mem_cons_self)
      rw [Bool.eq_false_iff]
      intro hdirty
      have hbefore := (hlater.untouched_evalAll fabric hclosed hgate hmoved.sane limit hrest).flags
        part (Gate.mem_all_trans hfirst hgate) (hstill part List.mem_cons_self) hdirty
      rw [hclean] at hbefore
      cases hbefore
    · exact ih hmoved.sane hlater hrest
        (fun other hother => hstill other (List.mem_cons_of_mem first hother)) part hpart

end ClockedLogic
