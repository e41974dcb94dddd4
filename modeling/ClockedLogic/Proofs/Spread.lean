import ClockedLogic.Proofs.Layout

/-!
How far a change spreads along links. A change that starts outside a gate reaches a part of the
gate through an input of the gate only, so it reaches the gate before its parts.
-/

namespace ClockedLogic

variable {drivers : Driver → Prop} {entries : Nat → Prop}

theorem Laid.of_mem_all {gate inner : Gate} (h : Laid drivers entries gate)
    (hinner : inner ∈ gate.all) : Laid drivers entries inner := by
  induction h with
  | builtIn hcomponent hin hout hnodup hentries honly =>
    rw [Gate.all, List.mem_singleton] at hinner
    subst hinner
    exact .builtIn hcomponent hin hout hnodup hentries honly
  | composite pairs hcomponent houtputs hparts hgates hwiring hlaid hsame hinputs hpins ih =>
    rw [Gate.all, List.mem_append, List.mem_singleton, Gate.allOf_eq_flatMap, List.mem_flatMap]
      at hinner
    rcases hinner with ⟨part, hpart, hinner⟩ | rfl
    · rw [hgates] at hpart
      obtain ⟨pair, hpair, rfl⟩ := List.mem_map.mp hpart
      exact ih pair hpair hinner
    · exact .composite pairs hcomponent houtputs hparts hgates hwiring hlaid hsame hinputs hpins

structure SpreadsFrom (drivers : Driver → Prop) (entries : Nat → Prop) (origin : Nat)
    (changed : Nat → Prop) : Prop where
  start : entries origin ∨ ∃ gate, drivers (.gate gate) ∧ (Driver.gate gate).Drives origin
  back : ∀ node, changed node → node = origin ∨ ∃ source bits targetBits,
    drivers (.statement (.link source bits node targetBits)) ∧ changed source

variable {origin : Nat} {changed : Nat → Prop}

/-- A node that takes its bits from other nodes only changes when one of them does. -/
theorem Follows.exists_changed {node : Nat} {sources : Nat → Prop}
    (h : Follows drivers entries node sources)
    (hspread : SpreadsFrom drivers entries origin changed)
    (hchanged : changed node) : ∃ source, sources source ∧ changed source := by
  rcases h with hsame | ⟨hentries, hdrivers⟩
  · exact ⟨node, hsame, hchanged⟩
  · rcases hspread.back node hchanged with rfl | ⟨source, bits, targetBits, hlink, hsource⟩
    · rcases hspread.start with hentry | ⟨gate, hgate, hdrives⟩
      · exact absurd hentry hentries
      · exact (hdrivers _ hgate hdrives).elim
    · exact ⟨source, hdrivers _ hlink rfl, hsource⟩

/-- A change from outside does not reach what a gate drives. -/
theorem Laid.not_changed {gate : Gate} (h : Laid drivers entries gate)
    (hspread : SpreadsFrom drivers entries origin changed)
    (houtside : ∀ inner ∈ gate.all, ¬ (Driver.gate inner).Drives origin) :
    ∀ role, role ≠ .input → ∀ node ∈ gate.nodesOf role, ¬ changed node := by
  induction h with
  | @builtIn site kind _ _ _ _ _ honly =>
    intro role hrole node hnode hchanged
    cases role with
    | input => exact hrole rfl
    | internal => cases hnode
    | output =>
      rcases hspread.back node hchanged with rfl | ⟨source, bits, targetBits, hlink, -⟩
      · exact houtside _ (List.mem_singleton_self _) hnode
      · cases honly _ _ hlink rfl hnode
  | @composite site internals gates pairs _ _ _ _ _ _ _ hgates _ _ _ _ hpins ih =>
    intro role hrole node hnode hchanged
    obtain ⟨index, hindex⟩ := List.mem_iff_getElem?.mp hnode
    obtain ⟨source, ⟨pair, hpair, wire, -, -, -, hsource⟩, hsourceChanged⟩ :=
      (hpins role index node hrole hindex).exists_changed hspread hchanged
    refine ih pair hpair (fun inner hinner => houtside inner ?_) .output (by decide) source
      (List.mem_of_getElem? hsource) hsourceChanged
    rw [Gate.all, List.mem_append, Gate.allOf_eq_flatMap, List.mem_flatMap]
    exact .inl ⟨pair.2, by rw [hgates]; exact List.mem_map_of_mem hpair, hinner⟩

/-- A change from outside that reaches an input of a part has reached an input of its owner. -/
theorem Laid.input_changed {gate part : Gate} (h : Laid drivers entries gate)
    (hspread : SpreadsFrom drivers entries origin changed)
    (houtside : ∀ inner ∈ gate.all, ¬ (Driver.gate inner).Drives origin) (hpart : part ∈ gate.parts)
    {node : Nat} (hnode : node ∈ part.inputs) (hchanged : changed node) :
    ∃ input ∈ gate.inputs, changed input := by
  have hinside := h.not_changed hspread houtside
  cases h with
  | builtIn => cases hpart
  | composite _ _ _ _ hgates _ _ _ hinputs _ =>
    rw [Gate.parts, hgates] at hpart
    obtain ⟨pair, hpair, rfl⟩ := List.mem_map.mp hpart
    obtain ⟨position, hposition⟩ := List.mem_iff_getElem?.mp hnode
    obtain ⟨source, ⟨_, -, -, -, role, index, -, -, hsource⟩, hsourceChanged⟩ :=
      (hinputs pair hpair position node hposition).exists_changed hspread hchanged
    cases role with
    | input => exact ⟨source, List.mem_of_getElem? hsource, hsourceChanged⟩
    | output =>
      exact absurd hsourceChanged
        (hinside .output (by decide) source (List.mem_of_getElem? hsource))
    | internal =>
      exact absurd hsourceChanged
        (hinside .internal (by decide) source (List.mem_of_getElem? hsource))

end ClockedLogic
