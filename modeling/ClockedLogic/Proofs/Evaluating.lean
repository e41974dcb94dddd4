import ClockedLogic.Proofs.Sweeping

/-!
Evaluating a gate of a circuit. Bringing it up to date leaves it calm, changes only what the built
in gates inside drive, and makes one more level firm. More sweeps than there are levels make no
difference.
-/

namespace ClockedLogic

variable {root : Gate} {draft : Draft} {level : Nat → Nat} {opened : Nat → Prop}
  {inside other : Gate → Prop} {before middle after : State}

/-- Inside a gate that is clean and not being evaluated there is nothing to do. -/
theorem Honest.calm_inside (h : Honest root opened before) {gate : Gate} (hgate : gate ∈ root.all)
    (hopened : ∀ inner ∈ gate.all, ¬ opened inner.index)
    (hclean : before.isDirty gate.index = false) :
    ∀ inner ∈ gate.all, before.isDirty inner.index = false ∧ before.Calm inner := by
  induction gate using Gate.inductionOn with
  | builtIn site chip =>
    intro inner hinner
    rw [Gate.all, List.mem_singleton] at hinner
    subst hinner
    exact ⟨hclean, h _ hgate (hopened _ (Gate.mem_all_self _)) hclean⟩
  | composite site internals parts ih =>
    have hcalm := h _ hgate (hopened _ (Gate.mem_all_self _)) hclean
    intro inner hinner
    rcases Gate.mem_all_iff.mp hinner with rfl | ⟨part, hpart, hinner⟩
    · exact ⟨hclean, hcalm⟩
    · have hpartMem := @Gate.mem_all_of_part (.composite site internals parts) part hpart
      exact ih part hpart (Gate.mem_all_trans hpartMem hgate)
        (fun found hfound => hopened found (Gate.mem_all_trans hfound hpartMem))
        (hcalm part hpart) inner hinner

namespace Refreshed

theorem of_clean (fabric : Fabric root draft) (hsane : Sane root draft before)
    (hhonest : Honest root opened before) {gate : Gate} (hgate : gate ∈ root.all)
    (hopened : ∀ inner ∈ gate.all, ¬ opened inner.index)
    (hclean : before.isDirty gate.index = false) :
    Refreshed root draft level opened (· ∈ gate.all) 1 before before where
  moves := .refl hsane
  honest := hhonest
  firm bound _ := firm_of_settled fabric hsane (fun _ hinner => Gate.mem_all_trans hinner hgate)
    (fun _ _ hinner => (hhonest.calm_inside hgate hopened hclean _ hinner).2) (bound + 1)

theorem succ (fabric : Fabric root draft) (hlevel : Leveled root draft.netlist level)
    (hsane : Sane root draft before) (hinside : ∀ gate, inside gate → gate ∈ root.all) {times : Nat}
    (h : Refreshed root draft level opened inside times before middle)
    (h' : Refreshed root draft level opened inside 1 middle after) :
    Refreshed root draft level opened inside (times + 1) before after where
  moves := h.moves.trans fabric hlevel hsane hinside h'.moves
  honest := h'.honest
  firm bound hfirm := h'.firm _ (h.firm bound hfirm)

theorem trans_apart (fabric : Fabric root draft) (hlevel : Leveled root draft.netlist level)
    (hsane : Sane root draft before) (hinside : ∀ gate, inside gate → gate ∈ root.all)
    (hother : ∀ gate, other gate → gate ∈ root.all) (hapart : ∀ gate, inside gate → ¬ other gate)
    (h : Refreshed root draft level opened inside 1 before middle)
    (h' : Refreshed root draft level opened other 1 middle after) :
    Refreshed root draft level opened (fun gate => inside gate ∨ other gate) 1 before after where
  moves := by
    have hfirst : Moves root draft level (fun gate => inside gate ∨ other gate) before middle :=
      h.moves.mono fun _ => .inl
    exact hfirst.trans fabric hlevel hsane (fun gate => Or.rec (hinside gate) (hother gate))
      (h'.moves.mono fun _ => .inr)
  honest := h'.honest
  firm bound hfirm := by
    have hinsideFirm : Firm level bound inside before :=
      hfirm.mono (fun _ _ => .inl) (Nat.le_refl _)
    have hotherFirm : Firm level bound other middle := h.moves.keeps_firm fabric hlevel hsane
      hinsideFirm (hfirm.mono (fun _ _ => .inr) (Nat.le_refl _)) hother
    have hkept := h'.moves.keeps_firm_apart fabric hlevel h.moves.sane hotherFirm
      (h.firm bound hinsideFirm) hinside hother hapart
    intro site kind chip hgate
    exact hgate.elim (fun hgate => hkept site kind chip hgate)
      fun hgate => h'.firm bound hotherFirm site kind chip hgate

end Refreshed

/-- Once a gate is open, all gates around its parts are open or dirty. -/
theorem Covered.around_part (fabric : Fabric root draft) {owner part : Gate}
    (h : Covered root opened before owner) (howner : owner ∈ root.all)
    (hpart : part ∈ owner.parts) :
    Around root opened before part := by
  intro gate hgate hmem
  rcases fabric.distinct.owner_inside howner hpart hgate hmem with rfl | hinside
  · exact .inl rfl
  · exact .inr (h gate hgate hinside)

/-- What happens inside the parts of an owner leaves the gates around the owner open or dirty. -/
theorem Covered.kept (fabric : Fabric root draft) {owner : Gate}
    (h : Covered root opened before owner)
    (howner : owner ∈ root.all)
    (hinside : ∀ gate, inside gate → ∃ part ∈ owner.parts, gate ∈ part.all)
    (hflags : ∀ gate ∈ root.all, ¬ inside gate → before.isDirty gate.index = true →
      after.isDirty gate.index = true) : Covered root opened after owner := by
  intro gate hgate hmem
  refine (h gate hgate hmem).imp_right (hflags gate hgate fun hfound => ?_)
  obtain ⟨part, hpart, hgatePart⟩ := hinside gate hfound
  exact (fabric.distinct.inside howner).notMem_part hpart (Gate.mem_all_trans hmem hgatePart)

/-- Opening a gate does not open the gates inside its parts. -/
theorem Fabric.not_opened_inside (fabric : Fabric root draft) {gate : Gate}
    (hgate : gate ∈ root.all)
    (hopened : ∀ inner ∈ gate.all, ¬ opened inner.index) :
    ∀ inner ∈ Gate.allOf gate.parts, ¬ (opened inner.index ∨ inner.index = gate.index) := by
  intro inner hinner hor
  obtain ⟨part, hpart, hinnerPart⟩ := Gate.mem_allOf_iff.mp hinner
  have hmem := Gate.mem_all_iff.mpr (.inr ⟨part, hpart, hinnerPart⟩)
  rcases hor with hopen | hindex
  · exact hopened inner hmem hopen
  · have hsame := fabric.distinct.eq (Gate.mem_all_trans hmem hgate) hgate hindex
    rw [hsame] at hinnerPart
    exact (fabric.distinct.inside hgate).notMem_part hpart hinnerPart

/-- What bringing a gate up to date with some number of sweeps comes to, wherever the gates around
it are open or dirty. -/
def CanRefresh (root : Gate) (draft : Draft) (level : Nat → Nat) (limit : Nat) (gate : Gate) :
    Prop :=
  ∀ (opened : Nat → Prop) (state : State), Sane root draft state → Honest root opened state →
    (∀ inner ∈ gate.all, ¬ opened inner.index) → Around root opened state gate →
    Refreshed root draft level opened (· ∈ gate.all) 1 state
        (gate.refresh draft.netlist limit state) ∧
      ((gate.refresh draft.netlist limit state).isDirty root.index = true →
        (state.clean gate.index).isDirty root.index = true) ∧
      Refreshes draft.netlist gate state (gate.refresh draft.netlist limit state)

theorem CanRefresh.visit (fabric : Fabric root draft) {limit : Nat} {gate : Gate}
    (h : CanRefresh root draft level limit gate) (hgate : gate ∈ root.all)
    (hsane : Sane root draft before) (hhonest : Honest root opened before)
    (hopened : ∀ inner ∈ gate.all, ¬ opened inner.index)
    (haround : Around root opened before gate) :
    ∃ next, (if before.isDirty gate.index then gate.refresh draft.netlist limit before
        else before) = next ∧
      Refreshed root draft level opened (· ∈ gate.all) 1 before next ∧
      ∀ gates last, EvaluatesAll draft.netlist gates next last →
        EvaluatesAll draft.netlist (gate :: gates) before last := by
  split
  · rename_i hdirty
    obtain ⟨hrefreshed, -, hrefreshes⟩ := h opened before hsane hhonest hopened haround
    exact ⟨_, rfl, hrefreshed, fun _ _ hrest => .dirty hdirty hrefreshes hrest⟩
  · rename_i hdirty
    have hclean := Bool.eq_false_iff.mpr hdirty
    exact ⟨_, rfl, .of_clean fabric hsane hhonest hgate hopened hclean,
      fun _ _ hrest => .clean hclean hrest⟩

theorem refreshed_evalAll (fabric : Fabric root draft) (hlevel : Leveled root draft.netlist level)
    {limit : Nat} {owner : Gate} (howner : owner ∈ root.all) {gates : List Gate}
    (hparts : ∀ gate ∈ gates, gate ∈ owner.parts)
    (hdistinct : ((Gate.allOf gates).map Gate.index).Nodup)
    (hrefresh : ∀ gate ∈ gates, CanRefresh root draft level limit gate)
    (hsane : Sane root draft before) (hhonest : Honest root opened before)
    (hopened : ∀ inner ∈ Gate.allOf gates, ¬ opened inner.index)
    (hcovered : Covered root opened before owner) :
    Refreshed root draft level opened (· ∈ Gate.allOf gates) 1 before
        (Gate.evalAll draft.netlist limit gates before) ∧
      EvaluatesAll draft.netlist gates before (Gate.evalAll draft.netlist limit gates before) := by
  induction gates generalizing before with
  | nil =>
    unfold Gate.evalAll
    exact ⟨⟨.refl hsane, hhonest, fun _ _ _ _ _ h => by cases h⟩, .nil⟩
  | cons gate gates ih =>
    have hpart := hparts gate List.mem_cons_self
    have hgate := Gate.part_mem_all howner hpart
    have hnone : ∀ inner ∈ gate.all, ¬ opened inner.index :=
      fun inner hinner => hopened inner (List.mem_append_left _ hinner)
    obtain ⟨next, hnext, hfirst, hall⟩ :=
      (hrefresh gate List.mem_cons_self).visit fabric hgate hsane
      hhonest hnone (hcovered.around_part fabric howner hpart)
    rw [Gate.evalAll, hnext]
    rw [Gate.allOf, List.map_append, List.nodup_append] at hdistinct
    obtain ⟨hrest, hrestAll⟩ :=
      ih (fun other hother => hparts other (List.mem_cons_of_mem _ hother))
      hdistinct.2.1 (fun other hother => hrefresh other (List.mem_cons_of_mem _ hother))
      hfirst.moves.sane hfirst.honest
      (fun inner hinner => hopened inner (List.mem_append_right _ hinner))
      (hcovered.kept fabric howner (fun inner hinner => ⟨gate, hpart, hinner⟩) hfirst.moves.flags)
    refine ⟨?_, hall _ _ hrestAll⟩
    have hboth := hfirst.trans_apart fabric hlevel hsane
      (fun inner hinner => Gate.mem_all_trans hinner hgate)
      (fun inner hinner => by
        obtain ⟨other, hother, hinner⟩ := Gate.mem_allOf_iff.mp hinner
        exact Gate.mem_all_trans hinner
          (Gate.part_mem_all howner (hparts other (List.mem_cons_of_mem _ hother))))
      (fun inner hinner hinner' => hdistinct.2.2 _ (List.mem_map_of_mem hinner) _
        (List.mem_map_of_mem hinner') rfl) hrest
    simpa only [Gate.allOf, List.mem_append] using hboth

/-- Once all levels inside parts are firm, the next sweep leaves the parts clean. -/
theorem allClean_evalAll (fabric : Fabric root draft) (hlevel : Leveled root draft.netlist level)
    (hsane : Sane root draft before) {limit : Nat} (hlimit : 1 ≤ limit) {parts : List Gate}
    (hparts : ∀ inner ∈ Gate.allOf parts, inner ∈ root.all) {bound : Nat}
    (hfirm : Firm level bound (· ∈ Gate.allOf parts) before) (hbound : draft.netlist.size < bound) :
    Gate.allClean parts (Gate.evalAll draft.netlist limit parts before) = true := by
  simp only [Gate.allClean, List.all_eq_true, Bool.not_eq_true']
  refine (quiet_evalAll (fun part _ => quiet_refresh _ hlimit part) fun site chip hinner => ?_).2
  exact hfirm.settled fabric hlevel hsane hparts hbound hinner

/-- A composite gate is up to date once sweeps over its parts have left all of them clean. -/
theorem Refreshed.composite (fabric : Fabric root draft) (hlevel : Leveled root draft.netlist level)
    (hsane : Sane root draft before) {site : Site} {internals : List Nat} {parts : List Gate}
    (hgate : .composite site internals parts ∈ root.all) {swept : Nat}
    (h : Refreshed root draft level (fun gate => opened gate ∨ gate = site.index)
      (· ∈ Gate.allOf parts) (swept + 1) (before.clean site.index) after)
    (hclean : Gate.allClean parts after = true) :
    Refreshed root draft level opened (· ∈ (Gate.composite site internals parts).all) 1 before
      after := by
  have hfirst : Moves root draft level (· ∈ (Gate.composite site internals parts).all) before
      (before.clean site.index) := moves_clean fabric hsane hgate (Gate.mem_all_self _)
  refine ⟨?_, ?_, fun bound hbound => ?_⟩
  · exact hfirst.trans fabric hlevel hsane (fun _ hinner => Gate.mem_all_trans hinner hgate)
      (h.moves.mono fun _ => List.mem_append_left _)
  · intro inner hinner hopened hinnerClean
    by_cases hindex : inner.index = site.index
    · obtain rfl := fabric.distinct.eq hinner hgate hindex
      intro part hpart
      simp only [Gate.allClean, List.all_eq_true, Bool.not_eq_true'] at hclean
      exact hclean part hpart
    · exact h.honest inner hinner (by rw [not_or]; exact ⟨hopened, hindex⟩) hinnerClean
  · have hcleaned : Firm level bound (· ∈ (Gate.composite site internals parts).all)
        (before.clean site.index) := hbound
    have hbefore : Firm level bound (· ∈ Gate.allOf parts) (before.clean site.index) :=
      hcleaned.mono (fun _ _ => List.mem_append_left _) (Nat.le_refl _)
    refine (h.firm bound hbefore).mono (fun site' chip' hinner => ?_) (by omega)
    exact (List.mem_append.mp hinner).resolve_right (by simp)

/-- Bringing any gate of a circuit up to date with as many sweeps as are ever needed, or more. -/
theorem canRefresh (fabric : Fabric root draft) (hlevel : Leveled root draft.netlist level)
    {limit : Nat} (hlimit : draft.sweepBound ≤ limit) {gate : Gate} (hgate : gate ∈ root.all) :
    CanRefresh root draft level limit gate := by
  have hsome : 1 ≤ limit := Nat.le_trans (Nat.le_add_left _ _) hlimit
  induction gate using Gate.inductionOn with
  | builtIn site chip =>
    intro opened state hsane hhonest _ haround
    unfold Gate.refresh
    have hrefreshed := refreshed_builtIn fabric hlevel hsane hhonest hgate haround
    simp only [Gate.all, List.mem_singleton]
    exact hrefreshed
  | composite site internals parts ih =>
    intro opened state hsane hhonest hopened haround
    have hparts : ∀ inner ∈ Gate.allOf parts, inner ∈ root.all := fun inner hinner =>
      Gate.mem_all_trans (List.mem_append_left _ hinner) hgate
    have hsaneClean := hsane.clean site.index
    have hsweep : ∀ swept now,
        Refreshed root draft level (fun gate => opened gate ∨ gate = site.index)
          (· ∈ Gate.allOf parts) swept (state.clean site.index) now →
        Refreshed root draft level (fun gate => opened gate ∨ gate = site.index)
            (· ∈ Gate.allOf parts) 1 now (Gate.evalAll draft.netlist limit parts now) ∧
          EvaluatesAll draft.netlist parts now (Gate.evalAll draft.netlist limit parts now) := by
      intro swept now hnow
      refine refreshed_evalAll fabric hlevel hgate (fun _ h => h)
        (fabric.distinct.inside hgate).parts
        (fun part hpart => ih part hpart (hparts part (Gate.mem_allOf_iff.mpr
          ⟨part, hpart, part.mem_all_self⟩))) hnow.moves.sane hnow.honest
        (fabric.not_opened_inside hgate hopened) ?_
      exact haround.clean.kept fabric hgate (fun inner hinner => Gate.mem_allOf_iff.mp hinner)
        hnow.moves.flags
    have hstart : Refreshed root draft level (fun gate => opened gate ∨ gate = site.index)
        (· ∈ Gate.allOf parts) 0 (state.clean site.index) (state.clean site.index) :=
      ⟨.refl hsaneClean, hhonest.clean site.index, fun _ h => h⟩
    unfold Gate.refresh
    obtain ⟨hsweeps, hclean, swept, hlast⟩ := sweeps_sweepUntil
      (fun swept now hnow => ⟨hnow.succ fabric hlevel hsaneClean hparts (hsweep swept now hnow).1,
        (hsweep swept now hnow).2⟩)
      (fun swept now hswept hnow => allClean_evalAll fabric hlevel hnow.moves.sane hsome hparts
        (hnow.firm 0 firm_zero) (Nat.lt_of_lt_of_le hswept (Nat.le_add_left _ _)))
      hstart (Nat.zero_le _) (Nat.lt_of_lt_of_le (Nat.lt_succ_self _) hlimit)
    exact ⟨.composite fabric hlevel hsane hgate hlast hclean, hlast.moves.root_flag,
      .composite hsweeps⟩

end ClockedLogic
