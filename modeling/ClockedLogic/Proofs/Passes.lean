import ClockedLogic.Proofs.Stillness
import ClockedLogic.Proofs.VisitTimes

/-!
How many passes over its parts a gate takes to be brought up to date. What a schedule says is due
does not change any more, whatever is evaluated inside the gate, so it agrees with what the parts
answer once they have been visited. After two passes all that the parts read is due: parts that are
dirty in the third pass are refreshed and stay clean.
-/

namespace ClockedLogic

/-- Sweeps once and then again for as long as something is left to do, unless this takes more passes
than are allowed. -/
def sweepWithin (sweep : State → Option State) (isDone : State → Bool) : Nat → State → Option State
  | 0, _ => none
  | passes + 1, state => do
    let swept ← sweep state
    if isDone swept then some swept else sweepWithin sweep isDone passes swept

namespace Gate

mutual

/-- Makes the gate clean and computes it anew, unless a composite gate takes more passes over its
parts than are allowed. -/
def refreshWithin (netlist : Netlist) (passes : Nat) : Gate → State → Option State
  | builtIn site _, state => some ((state.clean site.index).respond netlist site)
  | composite site _ parts, state =>
    sweepWithin (evalAllWithin netlist passes parts) (allClean parts) passes
      (state.clean site.index)

def evalAllWithin (netlist : Netlist) (passes : Nat) : List Gate → State → Option State
  | [], state => some state
  | gate :: gates, state => do
    let next ← (if state.isDirty gate.index then refreshWithin netlist passes gate state
      else some state)
    evalAllWithin netlist passes gates next

end

def evalWithin (netlist : Netlist) (passes : Nat) (gate : Gate) (state : State) : Option State :=
  if state.isDirty gate.index then gate.refreshWithin netlist passes state else some state

theorem evalAllWithin_cons (netlist : Netlist) (passes : Nat) (gate : Gate) (gates : List Gate)
    (state : State) : evalAllWithin netlist passes (gate :: gates) state =
      (gate.evalWithin netlist passes state).bind (evalAllWithin netlist passes gates) := by
  rw [evalAllWithin, evalWithin]
  rfl

end Gate

theorem sweepWithin_eq {sweep? : State → Option State} {sweep : State → State}
    {isDone : State → Bool} {inv : Nat → State → Prop} {last : Nat}
    (hstep : ∀ swept state, swept < last → inv swept state →
      sweep? state = some (sweep state) ∧ inv (swept + 1) (sweep state))
    (hdone : ∀ state, inv last state → isDone state = true) {swept passes limit : Nat}
    {state : State} (h : inv swept state) (hswept : swept < last) (hlast : last ≤ swept + passes)
    (hlimit : last ≤ swept + limit) :
    sweepWithin sweep? isDone passes state = some (sweepUntil sweep isDone limit state) := by
  induction passes generalizing swept limit state with
  | zero => omega
  | succ passes ih =>
    obtain ⟨room, rfl⟩ := Nat.exists_eq_add_of_le' (show 1 ≤ limit by omega)
    obtain ⟨hsame, hnext⟩ := hstep swept state hswept h
    rw [sweepWithin, sweepUntil, hsame]
    simp only [Option.bind_eq_bind, Option.bind_some]
    split
    · rfl
    · rename_i hdirty
      rcases Nat.lt_or_ge (swept + 1) last with hmore | hend
      · exact ih hnext hmore (by omega) (by omega)
      · obtain rfl : swept + 1 = last := by omega
        exact absurd (hdone _ hnext) hdirty

theorem isDone_of_sweepWithin {sweep? : State → Option State} {isDone : State → Bool} {passes : Nat}
    {before after : State} (h : sweepWithin sweep? isDone passes before = some after) :
    isDone after = true := by
  induction passes generalizing before with
  | zero => cases h
  | succ passes ih =>
    rw [sweepWithin, Option.bind_eq_bind, Option.bind_eq_some_iff] at h
    obtain ⟨swept, -, h⟩ := h
    split at h
    · rename_i hdone
      cases h
      exact hdone
    · exact ih h

variable {root owner gate part : Gate} {draft : Draft} {level : Nat → Nat} {opened : Nat → Prop}
  {due : Nat → Nat → Prop} {passes limit : Nat} {state : State}

/-- Whether bringing a gate up to date takes no composite gate inside more than so many passes,
wherever the gates around it are open or dirty. -/
def SettlesWithin (root : Gate) (draft : Draft) (passes limit : Nat) (gate : Gate) : Prop :=
  ∀ (opened : Nat → Prop) (state : State), Sane root draft state → Honest root opened state →
    (∀ inner ∈ gate.all, ¬ opened inner.index) → Around root opened state gate →
    gate.refreshWithin draft.netlist passes state =
      some (gate.refresh draft.netlist limit state)

/-- Whether a gate is open and its parts can be brought up to date. -/
structure Poised (root : Gate) (draft : Draft) (opened : Nat → Prop) (owner : Gate)
    (state : State) : Prop where
  sane : Sane root draft state
  honest : Honest root opened state
  covered : Covered root opened state owner

section

variable (fabric : Fabric root draft) (hlevel : Leveled root draft.netlist level)
  (hlimit : draft.sweepBound ≤ limit)
include fabric hlevel hlimit

/-- A gate that has been brought up to date leaves nothing to do inside, even if its own inputs have
changed meanwhile. -/
theorem SettlesWithin.settled (h : SettlesWithin root draft passes limit gate)
    (hgate : gate ∈ root.all) (hsane : Sane root draft state) (hhonest : Honest root opened state)
    (hopened : ∀ inner ∈ gate.all, ¬ opened inner.index) (haround : Around root opened state gate)
    {site : Site} {spec : ChipSpec} (hinner : .builtIn site spec ∈ gate.all) :
    (gate.refresh draft.netlist limit state).Settled site := by
  have hwithin := h opened state hsane hhonest hopened haround
  obtain ⟨hrefreshed, -, -⟩ :=
    canRefresh fabric hlevel hlimit hgate opened state hsane hhonest hopened haround
  cases gate with
  | builtIn =>
    rw [Gate.all, List.mem_singleton, Gate.builtIn.injEq] at hinner
    obtain ⟨rfl, rfl⟩ := hinner
    obtain ⟨kind, chip, rfl, hanswered⟩ := exists_answered fabric hsane hgate
    have hfirm := hanswered.firm fabric hlevel (draft.netlist.size + 1)
    rw [Gate.refresh]
    refine hfirm.settled fabric hlevel hanswered.written.sane ?_ (Nat.lt_succ_self _) rfl
    rintro _ rfl
    exact hgate
  | composite site' internals parts =>
    rw [Gate.refreshWithin] at hwithin
    have hclean := isDone_of_sweepWithin hwithin
    simp only [Gate.allClean, List.all_eq_true, Bool.not_eq_true'] at hclean
    obtain ⟨part, hpart, hinner⟩ := (Gate.mem_all_iff.mp hinner).resolve_left (by simp)
    have hmem := Gate.mem_all_of_part hpart
    exact (hrefreshed.honest.calm_inside (Gate.mem_all_trans hmem hgate)
      (fun found hfound => hopened found (Gate.mem_all_trans hfound hmem)) (hclean part hpart) _
      hinner).2

theorem Poised.refresh (howner : owner ∈ root.all) (h : Poised root draft opened owner state)
    (hpart : part ∈ owner.parts) (hopened : ∀ inner ∈ part.all, ¬ opened inner.index) :
    Poised root draft opened owner (part.refresh draft.netlist limit state) := by
  obtain ⟨hrefreshed, -, -⟩ := canRefresh fabric hlevel hlimit
    (Gate.part_mem_all howner hpart) opened state h.sane h.honest hopened
    (h.covered.around_part fabric howner hpart)
  exact ⟨hrefreshed.moves.sane, hrefreshed.honest, h.covered.kept fabric howner
    (fun inner hinner => ⟨part, hpart, hinner⟩) hrefreshed.moves.flags⟩

theorem Poised.visit (howner : owner ∈ root.all) (h : Poised root draft opened owner state)
    (hpart : part ∈ owner.parts) (hopened : ∀ inner ∈ part.all, ¬ opened inner.index)
    (hwithin : SettlesWithin root draft passes limit part) :
    part.evalWithin draft.netlist passes state = some (part.eval draft.netlist limit state) ∧
      Poised root draft opened owner (part.eval draft.netlist limit state) ∧
      ∀ site spec, .builtIn site spec ∈ part.all →
        (part.eval draft.netlist limit state).Settled site := by
  have hmem := Gate.part_mem_all howner hpart
  have haround := h.covered.around_part fabric howner hpart
  rw [Gate.evalWithin, Gate.eval]
  split
  · exact ⟨hwithin opened state h.sane h.honest hopened haround,
      h.refresh fabric hlevel hlimit howner hpart hopened, fun site spec =>
        hwithin.settled fabric hlevel hlimit hmem h.sane h.honest hopened haround⟩
  · rename_i hclean
    exact ⟨rfl, h, fun site spec hinner =>
      (h.honest.calm_inside hmem hopened (Bool.eq_false_iff.mpr hclean) _ hinner).2⟩

end

theorem Schedule.closed {netlist : Netlist} (h : Schedule netlist owner due) (time : Nat) :
    Closed netlist owner (due time) := ⟨h.links, h.reads⟩

/-- What has fallen due on a visit agrees after it. -/
theorem Schedule.agrees_eval (h : Schedule draft.netlist owner due) (fabric : Fabric root draft)
    (howner : owner ∈ root.all) {visit : Nat}
    (hpart : owner.parts[visit % owner.parts.length]? = some part) (hsane : Sane root draft state)
    (hagrees : Agrees (due visit) (· ∈ owner.all) state)
    (hsaneAfter : Sane root draft (part.eval draft.netlist limit state))
    (hsettled : ∀ site spec, .builtIn site spec ∈ part.all →
      (part.eval draft.netlist limit state).Settled site) :
    Agrees (due (visit + 1)) (· ∈ owner.all) (part.eval draft.netlist limit state) := by
  have hmoved := hagrees.untouched_eval fabric (h.closed visit) howner hsane limit
    (Gate.mem_all_of_part (List.mem_of_getElem? hpart))
  have hkept := hmoved.agrees fabric (h.closed visit) howner hsane hagrees
  intro site kind chip hinner hchip position node hnode hdue
  rcases Gate.mem_all_iff.mp hinner with rfl | ⟨other, hother, hmem⟩
  · exact absurd (List.mem_of_getElem? hpart) List.not_mem_nil
  · obtain ⟨place, hplace⟩ := List.mem_iff_getElem?.mp hother
    by_cases hvisited : place = visit % owner.parts.length
    · subst hvisited
      obtain rfl := Option.some.inj (hpart.symm.trans hplace)
      obtain ⟨found, hfound, hrealizes⟩ := hsaneAfter.chips _ _ (Gate.mem_all_trans hinner howner)
      obtain rfl := Option.some.inj (hfound.symm.trans hchip)
      exact (settled_iff fabric (Gate.mem_all_trans hinner howner) hchip hrealizes).mp
        (hsettled _ _ hmem) position node hnode
    · exact hkept site kind chip hinner hchip position node hnode
        (h.step hplace hvisited hmem node (List.mem_of_getElem? hnode) hdue)

/-- What holds of an open gate when all its parts have been visited so many times. -/
structure Visited (root : Gate) (draft : Draft) (opened : Nat → Prop) (owner : Gate)
    (due : Nat → Nat → Prop) (rounds : Nat) (state : State) : Prop where
  poised : Poised root draft opened owner state
  agrees : Agrees (due (rounds * owner.parts.length)) (· ∈ owner.all) state
  done : 3 ≤ rounds → Gate.allClean owner.parts state = true

section

variable (fabric : Fabric root draft) (hlevel : Leveled root draft.netlist level)
  (hlimit : draft.sweepBound ≤ limit) (howner : owner ∈ root.all)
  (hopened : ∀ inner ∈ Gate.allOf owner.parts, ¬ opened inner.index)
  (hwithin : ∀ part ∈ owner.parts, SettlesWithin root draft passes limit part)
include fabric hlevel hlimit howner hopened hwithin

theorem Schedule.sweep (h : Schedule draft.netlist owner due) {rounds position : Nat}
    {gates : List Gate} (hgates : owner.parts.drop position = gates)
    (hpoised : Poised root draft opened owner state)
    (hagrees : Agrees (due (rounds * owner.parts.length + position)) (· ∈ owner.all) state) :
    Gate.evalAllWithin draft.netlist passes gates state =
        some (Gate.evalAll draft.netlist limit gates state) ∧
      Poised root draft opened owner (Gate.evalAll draft.netlist limit gates state) ∧
      Agrees (due ((rounds + 1) * owner.parts.length)) (· ∈ owner.all)
        (Gate.evalAll draft.netlist limit gates state) := by
  induction gates generalizing position state with
  | nil =>
    rw [Gate.evalAllWithin, Gate.evalAll]
    refine ⟨rfl, hpoised, fun site kind chip hinner hchip place node hnode hdue =>
      hagrees site kind chip hinner hchip place node hnode (h.mono hdue ?_)⟩
    rw [Nat.succ_mul]
    exact Nat.add_le_add_left (List.drop_eq_nil_iff.mp hgates) _
  | cons part gates ih =>
    have hpart : owner.parts[position]? = some part := by
      rw [← List.head?_drop, hgates, List.head?_cons]
    have hrest : owner.parts.drop (position + 1) = gates := by
      rw [← List.tail_drop, hgates, List.tail_cons]
    have hvisit : (rounds * owner.parts.length + position) % owner.parts.length = position := by
      rw [Nat.mul_comm, Nat.mul_add_mod,
        Nat.mod_eq_of_lt (List.getElem?_eq_some_iff.mp hpart).1]
    have hmem := List.mem_of_getElem? hpart
    obtain ⟨hsame, hnext, hsettled⟩ := hpoised.visit fabric hlevel hlimit howner hmem
      (fun inner hinner => hopened inner (Gate.mem_allOf_iff.mpr ⟨part, hmem, hinner⟩))
      (hwithin part hmem)
    rw [← hvisit] at hpart
    have hlater := h.agrees_eval fabric howner hpart hpoised.sane hagrees hnext.sane hsettled
    rw [Gate.evalAllWithin_cons, hsame, Option.bind_some, Gate.evalAll_cons]
    exact ih hrest hnext hlater

theorem Visited.sweep (hschedule : Schedule draft.netlist owner due) {rounds : Nat}
    (h : Visited root draft opened owner due rounds state) :
    Gate.evalAllWithin draft.netlist passes owner.parts state =
        some (Gate.evalAll draft.netlist limit owner.parts state) ∧
      Visited root draft opened owner due (rounds + 1)
        (Gate.evalAll draft.netlist limit owner.parts state) := by
  obtain ⟨hsame, hpoised, hagrees⟩ := hschedule.sweep fabric hlevel hlimit howner hopened hwithin
    (List.drop_zero ..) h.poised h.agrees
  refine ⟨hsame, hpoised, hagrees, fun hrounds => ?_⟩
  simp only [Gate.allClean, List.all_eq_true, Bool.not_eq_true']
  refine h.agrees.isDirty_evalAll fabric (hschedule.closed _) howner h.poised.sane limit
    (fun part => Gate.mem_all_of_part) fun part hpart node hnode =>
      hschedule.mono (hschedule.ends part hpart node hnode) ?_
  exact Nat.mul_le_mul_right _ (by omega)

end

theorem settlesWithin (fabric : Fabric root draft) (hlevel : Leveled root draft.netlist level)
    (hlimit : draft.sweepBound ≤ limit) (hpasses : 3 ≤ passes) (hroom : 3 ≤ limit)
    (hschedules : ∀ gate ∈ root.all, ∃ due, Schedule draft.netlist gate due)
    (hgate : gate ∈ root.all) : SettlesWithin root draft passes limit gate := by
  induction gate using Gate.inductionOn with
  | builtIn site spec =>
    intro opened state _ _ _ _
    rw [Gate.refreshWithin, Gate.refresh]
  | composite site internals parts ih =>
    intro opened state hsane hhonest hopened haround
    obtain ⟨due, hschedule⟩ := hschedules _ hgate
    have hstep : ∀ rounds now, rounds < 3 →
        Visited root draft (fun index => opened index ∨ index = site.index)
          (.composite site internals parts) due rounds now →
        Gate.evalAllWithin draft.netlist passes parts now =
            some (Gate.evalAll draft.netlist limit parts now) ∧
          Visited root draft (fun index => opened index ∨ index = site.index)
            (.composite site internals parts) due (rounds + 1)
            (Gate.evalAll draft.netlist limit parts now) :=
      fun rounds now _ hnow => hnow.sweep fabric hlevel hlimit hgate
        (fabric.not_opened_inside hgate hopened)
        (fun part hpart => ih part hpart (Gate.part_mem_all hgate hpart)) hschedule
    have hstart : Visited root draft (fun index => opened index ∨ index = site.index)
        (.composite site internals parts) due 0 (state.clean site.index) := by
      refine ⟨⟨hsane.clean site.index, hhonest.clean site.index, haround.clean⟩, ?_, by omega⟩
      intro site' kind chip hinner _ place node hnode hdue
      rw [Nat.zero_mul] at hdue
      exact absurd hdue (hschedule.start hinner node (List.mem_of_getElem? hnode))
    rw [Gate.refreshWithin, Gate.refresh]
    exact sweepWithin_eq hstep (fun now hnow => hnow.done (Nat.le_refl _)) hstart (by omega)
      (by omega) (by omega)

end ClockedLogic
