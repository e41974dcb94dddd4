import ClockedLogic.Proofs.Fabric

/-!
Drafts that grow step by step: nodes, listeners, links and presets in any order. A draft records
what it has been asked for and nothing else. If its links have no circles and share no target bits,
its netlist is tidy, and levels of the nodes rise along all links.
-/

namespace ClockedLogic

inductive DraftStep where
  | addNode (width : Nat)
  | listen (node gate : Nat)
  | link (source : Nat) (bits : BitSpan) (target : Nat) (targetBits : BitSpan)
  | preset (node : Nat) (bits : BitSpan) (value : Word)
deriving DecidableEq, Repr

namespace DraftStep

def Linked (steps : List DraftStep) (source target : Nat) : Prop :=
  ∃ bits targetBits, .link source bits target targetBits ∈ steps

/-- What is asked of the steps: links run in no circles and take different bits of one target, no
preset touches bits that a link takes, and there are as many gates as are listening. -/
structure Orderly (steps : List DraftStep) (gates : Nat) : Prop where
  acyclic : ∀ node, ¬ Relation.TransGen (Linked steps) node node
  apart : ∀ source source' bits bits' target targetBits targetBits',
    .link source bits target targetBits ∈ steps → .link source' bits' target targetBits' ∈ steps →
    (source, bits, targetBits) ≠ (source', bits', targetBits') →
    targetBits.overlaps targetBits' = false
  presets : ∀ node span value source bits targetBits, .preset node span value ∈ steps →
    .link source bits node targetBits ∈ steps → span.overlaps targetBits = false
  gates : ∀ node gate, .listen node gate ∈ steps → gate < gates

end DraftStep

namespace Draft

/-- The draft that some steps lead to. They only name nodes that are there. -/
inductive Grown : List DraftStep → Draft → Prop where
  | empty : Grown [] .empty
  | addNode {steps : List DraftStep} {draft : Draft} (h : Grown steps draft) (width : Nat) :
    Grown (steps ++ [.addNode width]) (draft.addNode width)
  | listen {steps : List DraftStep} {draft : Draft} {node : Nat} (h : Grown steps draft)
    (hnode : node < draft.size) (gate : Nat) :
    Grown (steps ++ [.listen node gate]) (draft.listen node gate)
  | link {steps : List DraftStep} {draft next : Draft} {source target : Nat}
    {bits targetBits : BitSpan} (h : Grown steps draft) (hsource : source < draft.size)
    (htarget : target < draft.size) (hlink : draft.link source bits target targetBits = .ok next) :
    Grown (steps ++ [.link source bits target targetBits]) next
  | preset {steps : List DraftStep} {draft : Draft} {node : Nat} (h : Grown steps draft)
    (hnode : node < draft.size) (bits : BitSpan) (value : Word) :
    Grown (steps ++ [.preset node bits value]) (draft.preset node bits value)

structure Records (steps : List DraftStep) (draft : Draft) : Prop where
  values_size : draft.values.size = draft.size
  listeners_size : draft.netlist.listeners.size = draft.size
  listens : ∀ node gate, .gate gate ∈ draft.netlist.listenersOf node ↔ .listen node gate ∈ steps
  leads : ∀ source link, draft.netlist.Leads source link ↔
    .link source link.bits link.target link.targetBits ∈ steps
  even : ∀ source bits target targetBits, .link source bits target targetBits ∈ steps →
    bits.width = targetBits.width
  link_lt : ∀ source bits target targetBits, .link source bits target targetBits ∈ steps →
    source < draft.size ∧ target < draft.size
  /-- Only presets set bits. -/
  ones : ∀ node bit, bitOf draft.values node bit = true →
    ∃ span value, .preset node span value ∈ steps ∧ span.Covers bit

variable {steps : List DraftStep} {draft : Draft}

theorem records_empty : Records [] .empty where
  values_size := rfl
  listeners_size := rfl
  listens node gate := by simp [empty, Netlist.empty, Netlist.listenersOf]
  leads source link := by simp [empty, Netlist.empty, Netlist.Leads, Netlist.listenersOf]
  even _ _ _ _ h := by cases h
  link_lt _ _ _ _ h := by cases h
  ones node bit hone := by simp [bitOf, empty] at hone

theorem Records.addNode (h : Records steps draft) (width : Nat) :
    Records (steps ++ [.addNode width]) (draft.addNode width) where
  values_size := by simp [Draft.addNode, size, h.values_size]
  listeners_size := by simp [Draft.addNode, Netlist.addNode, size, Netlist.size, h.listeners_size]
  listens node gate := by
    simp only [Draft.addNode, Netlist.listenersOf_addNode, h.listens, List.mem_append,
      List.mem_singleton, reduceCtorEq, or_false]
  leads source link := by
    have hold := h.leads source link
    simp only [Netlist.Leads] at hold
    simp only [Netlist.Leads, Draft.addNode, Netlist.listenersOf_addNode, hold, List.mem_append,
      List.mem_singleton, reduceCtorEq, or_false]
  even source bits target targetBits hlink := by
    rw [List.mem_append, List.mem_singleton] at hlink
    exact h.even source bits target targetBits (hlink.resolve_right (by simp))
  link_lt source bits target targetBits hlink := by
    rw [List.mem_append, List.mem_singleton] at hlink
    obtain ⟨hsource, htarget⟩ :=
      h.link_lt source bits target targetBits (hlink.resolve_right (by simp))
    have hsize : (draft.addNode width).size = draft.size + 1 := Netlist.size_addNode _ _
    omega
  ones node bit hone := by
    have hkept : (draft.values.push 0).getD node 0 = draft.values.getD node 0 := by
      simp only [Array.getD_eq_getD_getElem?, Array.getElem?_push]
      split
      · rename_i heq
        rw [heq, Array.getElem?_eq_none (Nat.le_refl _)]
        rfl
      · rfl
    rw [bitOf, Draft.addNode, hkept] at hone
    obtain ⟨span, value, hpreset, hcovers⟩ := h.ones node bit hone
    exact ⟨span, value, List.mem_append_left _ hpreset, hcovers⟩

theorem Records.addListener (h : Records steps draft) {source : Nat} (hsource : source < draft.size)
    {listener : Listener} {step : DraftStep}
    (hgate : ∀ node gate, step = .listen node gate ↔ node = source ∧ .gate gate = listener)
    (hlink : ∀ node link, step = .link node link.bits link.target link.targetBits ↔
      node = source ∧ .link link = listener)
    (heven : ∀ link, listener = .link link →
      link.bits.width = link.targetBits.width ∧ link.target < draft.size) :
    Records (steps ++ [step])
      { draft with netlist := draft.netlist.addListener source listener } := by
  have hlisteners : ∀ node other, other ∈ (draft.netlist.addListener source listener).listenersOf
      node ↔ other ∈ draft.netlist.listenersOf node ∨ node = source ∧ other = listener := by
    intro node other
    rw [Netlist.listenersOf_addListener _ _ _ _ (by rwa [h.listeners_size])]
    split
    · rename_i heq
      simp [heq]
    · rename_i hne
      simp [Ne.symm hne]
  have hnew : ∀ node bits target targetBits, .link node bits target targetBits ∈ steps ++ [step] →
      .link node bits target targetBits ∈ steps ∨
        node = source ∧ listener = .link ⟨bits, target, targetBits⟩ := by
    intro node bits target targetBits hmem
    refine (List.mem_append.mp hmem).imp_right fun hlast => ?_
    obtain ⟨rfl, hsame⟩ :=
      (hlink node ⟨bits, target, targetBits⟩).mp (List.mem_singleton.mp hlast).symm
    exact ⟨rfl, hsame.symm⟩
  refine ⟨h.values_size, ?_, fun node gate => ?_, fun node link => ?_,
    fun node bits target targetBits hmem => ?_, fun node bits target targetBits hmem => ?_,
    fun node bit hone => ?_⟩
  · rw [Netlist.addListener, Array.size_setIfInBounds]
    exact h.listeners_size
  · rw [hlisteners, h.listens, List.mem_append, List.mem_singleton, ← hgate, @eq_comm _ step]
  · rw [Netlist.Leads, hlisteners, List.mem_append, List.mem_singleton, ← hlink,
      @eq_comm _ step]
    exact or_congr_left (h.leads node link)
  · rcases hnew _ _ _ _ hmem with hold | ⟨-, hsame⟩
    · exact h.even _ _ _ _ hold
    · exact (heven _ hsame).1
  · rcases hnew _ _ _ _ hmem with hold | ⟨rfl, hsame⟩
    · exact h.link_lt _ _ _ _ hold
    · exact ⟨hsource, (heven _ hsame).2⟩
  · obtain ⟨span, value, hmem, hcovers⟩ := h.ones node bit hone
    exact ⟨span, value, List.mem_append_left _ hmem, hcovers⟩

theorem Records.again (h : Records steps draft) {node gate : Nat}
    (hlisten : .listen node gate ∈ steps) : Records (steps ++ [.listen node gate]) draft := by
  have hmem : ∀ step, step ∈ steps ++ [.listen node gate] ↔ step ∈ steps := by
    intro step
    rw [List.mem_append, List.mem_singleton]
    exact ⟨fun hcases => hcases.elim id fun he => he ▸ hlisten, .inl⟩
  refine ⟨h.values_size, h.listeners_size, fun other index => ?_, fun source link => ?_,
    fun source bits target targetBits hlink => ?_, fun source bits target targetBits hlink => ?_,
    fun other bit hone => ?_⟩
  · rw [hmem, h.listens]
  · rw [hmem, h.leads]
  · exact h.even _ _ _ _ ((hmem _).mp hlink)
  · exact h.link_lt _ _ _ _ ((hmem _).mp hlink)
  · obtain ⟨span, value, hpreset, hcovers⟩ := h.ones other bit hone
    exact ⟨span, value, (hmem _).mpr hpreset, hcovers⟩

theorem Records.listen (h : Records steps draft) {node : Nat} (hnode : node < draft.size)
    (gate : Nat) : Records (steps ++ [.listen node gate]) (draft.listen node gate) := by
  unfold Draft.listen
  split
  · rename_i hold
    exact h.again ((h.listens node gate).mp hold)
  · refine h.addListener hnode (fun other index => ?_) (fun other link => ?_)
      (fun link hlink => ?_)
    · simp [eq_comm]
    · simp
    · cases hlink

theorem Records.link (h : Records steps draft) {source target : Nat} {bits targetBits : BitSpan}
    {next : Draft} (hsource : source < draft.size) (htarget : target < draft.size)
    (hlink : draft.link source bits target targetBits = .ok next) :
    Records (steps ++ [.link source bits target targetBits]) next := by
  unfold Draft.link at hlink
  split at hlink
  · rename_i heven
    cases hlink
    refine h.addListener hsource (fun other index => ?_) (fun other link => ?_)
      (fun link hlink => ?_)
    · simp
    · cases link
      simp [eq_comm]
    · cases hlink
      exact ⟨heven, htarget⟩
  · cases hlink

theorem Records.preset (h : Records steps draft) {node : Nat} (hnode : node < draft.size)
    (bits : BitSpan) (value : Word) :
    Records (steps ++ [.preset node bits value]) (draft.preset node bits value) where
  values_size := by
    rw [Draft.preset, Array.size_setIfInBounds]
    exact h.values_size
  listeners_size := h.listeners_size
  listens other gate := by
    rw [List.mem_append, List.mem_singleton]
    exact (h.listens other gate).trans (by simp)
  leads source link := by
    rw [List.mem_append, List.mem_singleton]
    exact (h.leads source link).trans (by simp)
  even source bits target targetBits hlink := by
    rw [List.mem_append, List.mem_singleton] at hlink
    exact h.even source bits target targetBits (hlink.resolve_right (by simp))
  link_lt source bits target targetBits hlink := by
    rw [List.mem_append, List.mem_singleton] at hlink
    exact h.link_lt source bits target targetBits (hlink.resolve_right (by simp))
  ones other bit hone := by
    rw [bitOf, Draft.preset, getD_setIfInBounds (h.values_size ▸ hnode)] at hone
    split at hone
    · rename_i hsame
      subst hsame
      rw [BitSpan.getLsbD_splice] at hone
      split at hone
      · rename_i hcovers
        exact ⟨bits, value, List.mem_append_right _ (List.mem_singleton_self _), hcovers⟩
      · obtain ⟨span, old, hpreset, hcovers⟩ := h.ones node bit hone
        exact ⟨span, old, List.mem_append_left _ hpreset, hcovers⟩
    · obtain ⟨span, old, hpreset, hcovers⟩ := h.ones other bit hone
      exact ⟨span, old, List.mem_append_left _ hpreset, hcovers⟩

theorem Grown.records (h : Grown steps draft) : Records steps draft := by
  induction h with
  | empty => exact records_empty
  | addNode _ width ih => exact ih.addNode width
  | listen _ hnode gate ih => exact ih.listen hnode gate
  | link _ hsource htarget hlink ih => exact ih.link hsource htarget hlink
  | preset _ hnode bits value ih => exact ih.preset hnode bits value

end Draft

section

variable {steps : List DraftStep} {draft : Draft} {gates : Nat}

theorem Draft.Records.linked (h : draft.Records steps) {source : Nat} {link : Link}
    (hlink : draft.netlist.Leads source link) : DraftStep.Linked steps source link.target :=
  ⟨link.bits, link.targetBits, (h.leads source link).mp hlink⟩

theorem DraftStep.Orderly.tidy (horderly : DraftStep.Orderly steps gates)
    (h : draft.Records steps) : draft.netlist.IsTidy where
  target_lt source link hlink := (h.link_lt _ _ _ _ ((h.leads source link).mp hlink)).2
  even source link hlink := h.even _ _ _ _ ((h.leads source link).mp hlink)
  no_loop source link hlink hsame :=
    horderly.acyclic link.target (.single (by simpa only [hsame] using h.linked hlink))
  apart source source' link link' bit hlink hlink' hsame hcovers hcovers' := by
    rw [h.leads] at hlink hlink'
    obtain ⟨bits, target, targetBits⟩ := link
    obtain ⟨bits', target', targetBits'⟩ := link'
    obtain rfl : target = target' := hsame
    by_contra hne
    have hclash := horderly.apart source source' bits bits' target targetBits targetBits' hlink
      hlink' fun hall => hne (by simp_all)
    rw [Bool.eq_false_iff] at hclash
    exact hclash (BitSpan.overlaps_iff.mpr ⟨bit, hcovers, hcovers'⟩)

theorem DraftStep.Orderly.not_copied (horderly : DraftStep.Orderly steps gates)
    (h : draft.Records steps) {node bit : Nat} (hone : bitOf draft.values node bit = true) :
    ¬ draft.netlist.IsCopied node bit := by
  rintro ⟨source, link, hlink, rfl, hcovers⟩
  obtain ⟨span, value, hpreset, hcovers'⟩ := h.ones _ _ hone
  have hclash := horderly.presets _ span value source link.bits link.targetBits hpreset
    ((h.leads source link).mp hlink)
  rw [Bool.eq_false_iff] at hclash
  exact hclash (BitSpan.overlaps_iff.mpr ⟨bit, hcovers', hcovers⟩)

/-- Levels rise along all links, where these run in no circles. -/
theorem Draft.Records.exists_level (h : draft.Records steps)
    (hacyclic : ∀ node, ¬ Relation.TransGen (DraftStep.Linked steps) node node) :
    ∃ level : Nat → Nat, (∀ node, level node ≤ draft.size) ∧
      ∀ source link, draft.netlist.Leads source link → level source < level link.target := by
  obtain ⟨level, hbound, hlevel⟩ := exists_level_of_irrefl draft.size hacyclic
    fun source node hlinked => by
      obtain ⟨bits, targetBits, hmem⟩ := hlinked
      exact (h.link_lt _ _ _ _ hmem).1
  exact ⟨level, hbound, fun source link hlink => hlevel _ _ (h.linked hlink)⟩

end

end ClockedLogic
