import ClockedLogic.Proofs.Networks
import ClockedLogic.Proofs.ProbeRecords

/-!
Probing the nodes of a network. Whatever values its nodes are given and whenever they are probed,
the log holds a record for each change of a probed node and no other records. Links without circles
make every such run come to an end, also where several links feed the same bits.
-/

namespace ClockedLogic

inductive ProbeCall where
  | set (node : Nat) (value : Word)
  | probe (node : Nat) (name : String)

def BitSpan.single (bit : Fin 16) : BitSpan := ⟨bit, bit, Nat.le_refl _, bit.isLt⟩

namespace Network

/-- A network that has been built from a draft, however long its first cascade takes. -/
inductive BuiltFrom (draft : Draft) (gates : Nat) : Network → Prop where
  | intro {last : Cascade}
    (hends : (Signals.ofDraft draft gates).cascadeAll.EndsIn draft.netlist last)
    (hmarks : ∀ gate, .mark gate ∈ last.events → gate < gates) :
    BuiltFrom draft gates ⟨draft.netlist, (Signals.ofDraft draft gates).absorb last⟩

def course (network : Network) (node : Nat) (value : Word) (steps : Nat) : List (Array Word) :=
  (network.signals.cascadeFrom node value).values ::
    (network.signals.cascadeFrom node value).timeline network.netlist steps

/-- What becomes of a network by some calls, and the moments that it goes through. There is none
for a value that is not new. For a new one, there is one once the node holds it, and then one for
each listener that is notified. -/
inductive Recounts (network : Network) : List ProbeCall → List Moment → Network → Prop where
  | start : Recounts network [] [] network
  | probe {calls : List ProbeCall} {moments : List Moment} {now : Network}
    (h : Recounts network calls moments now) (node : Nat) (name : String) :
    Recounts network (calls ++ [.probe node name]) (moments ++ [.probed node name])
      (now.probe node name)
  | keep {calls : List ProbeCall} {moments : List Moment} {now after : Network} {node : Nat}
    {value : Word} (h : Recounts network calls moments now) (hnode : node < now.size)
    (hset : now.SetsTo node value (false, after)) :
    Recounts network (calls ++ [.set node value]) moments after
  | change {calls : List ProbeCall} {moments : List Moment} {now after : Network} {node : Nat}
    {value : Word} {steps : Nat} (h : Recounts network calls moments now) (hnode : node < now.size)
    (hset : now.SetsTo node value (true, after))
    (hended : ((now.signals.cascadeFrom node value).run now.netlist steps).pending = []) :
    Recounts network (calls ++ [.set node value])
      (moments ++ (now.course node value steps).map .holds) after

/-- All that has been entered in the course of some moments. No node has a name at the start. -/
def entriesOf (network : Network) (moments : List Moment) : List ProbeEntry :=
  Moment.entries (fun _ => none) network.signals.values moments

/-- What the log of a network tells of the moments that it has gone through. -/
structure Logs (network : Network) (moments : List Moment) (now : Network) : Prop where
  log : now.log = (network.entriesOf moments).map ProbeEntry.record
  values : Moment.valuesAfter network.signals.values moments = now.signals.values
  /-- One node changes at a time. -/
  single : List.IsChain (fun before after => (changes before after).length ≤ 1)
    (network.signals.values :: Moment.states moments)
  /-- Since it was first probed, each value that a node has come to hold is entered once. -/
  successive : ∀ node early name late, moments = early ++ .probed node name :: late →
    ¬ Moment.Probes node early →
    (Moment.valuesAfter network.signals.values early).getD node 0 ::
        entered node (network.entriesOf moments) =
      ((Moment.valuesAfter network.signals.values early).getD node 0 ::
        Moment.held node late).destutter (· ≠ ·)
  differ : ∀ node, List.IsChain (· ≠ ·)
    (((network.entriesOf moments).filter (·.node == node)).map ProbeEntry.record)
  last : ∀ node value, (entered node (network.entriesOf moments)).getLast? = some value →
    now.value node = value
  unprobed : ∀ node, ¬ Moment.Probes node moments → entered node (network.entriesOf moments) = []

structure Follows (draft : Draft) (gates : Nat) (network : Network) (moments : List Moment)
    (now : Network) : Prop where
  belongs : now.Belongs draft gates
  names : now.signals.probeName? = Moment.namesAfter (fun _ => none) moments
  values : now.signals.values = Moment.valuesAfter network.signals.values moments
  log : now.log = (network.entriesOf moments).map ProbeEntry.record
  single : List.IsChain (fun before after => (changes before after).length ≤ 1)
    (network.signals.values :: Moment.states moments)

variable {steps : List DraftStep} {draft : Draft} {gates : Nat} {network now after : Network}
  {calls : List ProbeCall} {moments : List Moment} {node : Nat} {value : Word}

/-- What a network is built with, once its first cascade has ended. -/
theorem keeps_cascadeAll (hrecords : draft.Records steps) {last : Cascade}
    (hends : (Signals.ofDraft draft gates).cascadeAll.EndsIn draft.netlist last) :
    last.values.size = draft.netlist.size ∧
      ∀ gate, .mark gate ∈ last.events → ∃ listened, .listen listened gate ∈ steps :=
  keeps_of_endsIn hrecords hrecords.values_size (fun _ => List.not_mem_nil) hends

/-- Nothing is logged before a node is probed. -/
theorem BuiltFrom.follows (h : BuiltFrom draft gates network) (hrecords : draft.Records steps) :
    Follows draft gates network [] network := by
  obtain @⟨last, hends, hmarks⟩ := h
  have hdirty : (Signals.ofDraft draft gates).dirty.size = gates := FlagSet.size_full gates
  refine ⟨⟨rfl, (keeps_cascadeAll hrecords hends).1, ?_⟩, Signals.probeName?_absorb _ _, rfl, ?_,
    List.isChain_singleton _⟩
  · exact (Signals.dirty_absorb (hdirty.symm ▸ hmarks)).1.trans hdirty
  · have hnames : (Signals.ofDraft draft gates).probeName? = fun _ => none := rfl
    rw [Network.log, Signals.log_absorb, hnames, entriesFor_none]
    rfl

theorem Follows.probe (h : Follows draft gates network moments now) (node : Nat) (name : String) :
    Follows draft gates network (moments ++ [.probed node name]) (now.probe node name) where
  belongs := ⟨h.belongs.netlist, h.belongs.values_size, h.belongs.dirty_size⟩
  names := by
    rw [Moment.namesAfter_append, ← h.names]
    exact now.signals.probeName?_probe node name
  values := by
    rw [Moment.valuesAfter_append, ← h.values]
    rfl
  log := by
    rw [entriesOf, Moment.entries_append]
    exact h.log.trans (congrArg (List.map _) (List.append_nil _).symm)
  single := by
    rw [Moment.states_append]
    exact (List.append_nil (Moment.states moments)).symm ▸ h.single

/-- The course of a new value, as if the nodes had been at rest before. -/
theorem Belongs.passes_course (h : now.Belongs draft gates) (hrecords : draft.Records steps)
    (hnode : node < now.size) (hvalue : now.value node ≠ value) (count : Nat) :
    Cascade.Passes now.netlist ⟨now.signals.values, [], []⟩ (now.course node value count)
      ((now.signals.cascadeFrom node value).run now.netlist count) := by
  have hbound : node < now.signals.values.size := by
    rw [h.values_size, ← h.netlist]
    exact hnode
  have hfirst := @Cascade.passes_change now.netlist ⟨now.signals.values, [], []⟩ node value hbound
    hvalue.symm [node]
  refine hfirst.trans (Cascade.passes_run (fun source link hlink => ?_) count)
  rw [hfirst.size, h.values_size]
  exact target_lt hrecords (h.netlist ▸ hlink)

/-- A new value and the cascade that follows are one assignment after the other. -/
theorem Follows.change (h : Follows draft gates network moments now)
    (hrecords : draft.Records steps) (hnode : node < now.size) {count : Nat}
    (hset : now.SetsTo node value (true, after))
    (hended : ((now.signals.cascadeFrom node value).run now.netlist count).pending = []) :
    Follows draft gates network (moments ++ (now.course node value count).map .holds) after := by
  have hbelongs := hset.belongs hrecords h.belongs
  cases hset with | @change last hvalue hends hmarks
  have hpasses := h.belongs.passes_course hrecords hnode hvalue count
  -- a cascade ends in one way only, so what the moments are taken from is what is absorbed
  obtain rfl : (now.signals.cascadeFrom node value).run now.netlist count = last :=
    Cascade.EndsIn.unique ⟨hended, count, rfl⟩ hends
  have hnow : Moment.valuesAfter network.signals.values moments = now.signals.values :=
    h.values.symm
  refine ⟨hbelongs, ?_, ?_, ?_, ?_⟩
  · rw [Moment.namesAfter_append, Moment.namesAfter_holds, ← h.names]
    exact Signals.probeName?_absorb _ _
  · rw [Moment.valuesAfter_append, hnow, Moment.valuesAfter, Moment.states_holds]
    exact hpasses.last.symm
  · rw [Network.log, Signals.log_absorb, hpasses.told, List.reverse_append, List.reverse_reverse,
      entriesOf, Moment.entries_append, Moment.entries_holds, List.map_append, hnow, ← h.names]
    exact congrArg (· ++ _) h.log
  · rw [Moment.states_append, Moment.states_holds]
    refine isChain_cons_append h.single ?_
    have hsingle := hpasses.single
    rw [← hnow] at hsingle
    exact hsingle

theorem Recounts.follows (hrun : network.Recounts calls moments now)
    (hrecords : draft.Records steps) (h : BuiltFrom draft gates network) :
    Follows draft gates network moments now := by
  induction hrun with
  | start => exact h.follows hrecords
  | probe _ node name ih => exact ih.probe node name
  | keep _ _ hset ih =>
    cases hset with
    | same => exact ih
  | change _ hnode hset hended ih => exact ih.change hrecords hnode hset hended

/-- What comes after a node has first been probed. -/
theorem entered_of_first {early late : List Moment} {name : String}
    (hearly : ¬ Moment.Probes node early) :
    entered node (network.entriesOf (early ++ .probed node name :: late)) =
      entered node (Moment.entries
        (Function.update (Moment.namesAfter (fun _ => none) early) node (some name))
        (Moment.valuesAfter network.signals.values early) late) := by
  rw [entriesOf, Moment.entries_append, entered_append, Moment.entered_eq_nil rfl hearly]
  rfl

/-- Where anything is entered for a node, it is what comes after the value first probed. -/
theorem Follows.entered_cases (h : Follows draft gates network moments now) (node : Nat) :
    entered node (network.entriesOf moments) = [] ∨ ∃ first,
      (first :: entered node (network.entriesOf moments)).IsChain (· ≠ ·) ∧
      (first :: entered node (network.entriesOf moments)).getLast? = some (now.value node) := by
  by_cases hprobed : Moment.Probes node moments
  · obtain ⟨early, name, late, rfl, hearly⟩ := hprobed.exists_first
    have hname := isSome_update (Moment.namesAfter (fun _ => none) early) node name
    have hnow : now.signals.values = Moment.valuesAfter
        (Moment.valuesAfter network.signals.values early) late := by
      rw [h.values, Moment.valuesAfter_append]
      rfl
    rw [entered_of_first hearly, Network.value, Signals.value, hnow]
    exact .inr ⟨_, Moment.isChain_entered hname late, Moment.getLast?_entered hname late⟩
  · exact .inl (Moment.entered_eq_nil rfl hprobed)

theorem Follows.logs (h : Follows draft gates network moments now) : Logs network moments now := by
  refine ⟨h.log, h.values.symm, h.single, fun node early name late hsplit hearly => ?_,
    fun node => ?_, fun node value hlast => ?_, fun node hnever => ?_⟩
  · rw [hsplit, entered_of_first hearly]
    exact Moment.entered_eq_destutter (isSome_update _ node name) late
  · have hchain : (entered node (network.entriesOf moments)).IsChain (· ≠ ·) := by
      rcases h.entered_cases node with hnone | ⟨first, hchain, -⟩
      · exact hnone ▸ List.isChain_nil
      · exact hchain.tail
    rw [entered, List.isChain_map] at hchain
    rw [List.isChain_map]
    exact hchain.imp fun first second hne hsame => hne (probeRecord_inj.mp hsame).2
  · rcases h.entered_cases node with hnone | ⟨first, -, hend⟩
    · rw [hnone] at hlast
      cases hlast
    · rw [List.getLast?_cons, hlast] at hend
      exact (Option.some.inj hend).symm
  · exact Moment.entered_eq_nil rfl hnever

/-- Wherever the bounded cascade comes to an end, it is what giving a node a value comes to. -/
theorem Belongs.set_eq_ok_iff (h : now.Belongs draft gates) (hrecords : draft.Records steps)
    (hgates : ∀ node gate, .listen node gate ∈ steps → gate < gates)
    (hended : ((now.signals.cascadeFrom node value).finish now.netlist).pending = [])
    (result : Bool × Network) : now.set node value = .ok result ↔ now.SetsTo node value result := by
  have hheard : ∀ listened, now.netlist.strayListener? now.signals.dirty.size listened = none := by
    rw [h.netlist, h.dirty_size]
    exact strayListener?_eq_none hrecords hgates
  have hends := Cascade.endsIn_finish hended
  rw [Network.set]
  split
  · rename_i hsame
    constructor
    · rintro ⟨⟩
      exact .same hsame
    · intro hset
      cases hset with
      | same => rfl
      | change hne => exact absurd hsame hne
  · rename_i hne
    rw [Cascade.finishWithin_eq_ok_finish hheard]
    constructor
    · rintro ⟨⟩
      refine .change hne hends fun gate hmark => ?_
      obtain ⟨listened, hlisten⟩ := (h.keeps hrecords hends).2 gate hmark
      exact h.dirty_size ▸ hgates listened gate hlisten
    · intro hset
      cases hset with
      | same hsame => exact absurd hsame hne
      | change _ hends' => rw [hends'.unique hends]; rfl

theorem ofDraft_eq_ok_iff (hrecords : draft.Records steps)
    (hgates : ∀ node gate, .listen node gate ∈ steps → gate < gates)
    (hended : ((Signals.ofDraft draft gates).cascadeAll.finish draft.netlist).pending = [])
    (network : Network) : ofDraft draft gates = .ok network ↔ BuiltFrom draft gates network := by
  have hends := Cascade.endsIn_finish hended
  rw [ofDraft, Cascade.finishWithin_eq_ok_finish (strayListener?_eq_none hrecords hgates)]
  constructor
  · rintro ⟨⟩
    refine .intro hends fun gate hmark => ?_
    obtain ⟨listened, hlisten⟩ := (keeps_cascadeAll hrecords hends).2 gate hmark
    exact hgates listened gate hlisten
  · rintro ⟨hends', -⟩
    rw [hends'.unique hends]
    rfl

/-- A network is built, also where links feed the same bits. -/
theorem exists_builtFrom (hrecords : draft.Records steps)
    (hacyclic : ∀ node, ¬ Relation.TransGen (DraftStep.Linked steps) node node)
    (hgates : ∀ node gate, .listen node gate ∈ steps → gate < gates) :
    ∃ network, BuiltFrom draft gates network := by
  obtain ⟨level, hbound, hlevel⟩ := hrecords.exists_level hacyclic
  obtain ⟨last, hends⟩ := Cascade.exists_endsIn hbound hlevel
    (Signals.ofDraft draft gates).cascadeAll
  refine ⟨_, .intro hends fun gate hmark => ?_⟩
  obtain ⟨listened, hlisten⟩ := (keeps_cascadeAll hrecords hends).2 gate hmark
  exact hgates listened gate hlisten

/-- The runs that the calls have, whatever values they give the nodes. -/
theorem BuiltFrom.exists_recounts (h : BuiltFrom draft gates network)
    (hrecords : draft.Records steps)
    (hacyclic : ∀ node, ¬ Relation.TransGen (DraftStep.Linked steps) node node)
    (hgates : ∀ node gate, .listen node gate ∈ steps → gate < gates) (calls : List ProbeCall)
    (hnodes : ∀ node value, .set node value ∈ calls → node < draft.size) :
    ∃ moments now, network.Recounts calls moments now := by
  induction calls using List.reverseRecOn with
  | nil => exact ⟨[], network, .start⟩
  | append_singleton calls call ih =>
    obtain ⟨moments, now, hrun⟩ := ih fun node value hmem =>
      hnodes node value (List.mem_append_left _ hmem)
    cases call with
    | probe node name => exact ⟨_, _, hrun.probe node name⟩
    | set node value =>
      have hbelongs := (hrun.follows hrecords h).belongs
      have hnode : node < now.size := by
        rw [size, hbelongs.netlist]
        exact hnodes node value (List.mem_append_right _ List.mem_cons_self)
      obtain ⟨⟨changed, after⟩, hset⟩ :=
        hbelongs.exists_setsTo hrecords hacyclic hgates node value
      cases changed with
      | false => exact ⟨_, _, hrun.keep hnode hset⟩
      | true =>
        cases hset with | @change last hvalue hends hmarks
        obtain ⟨hended, count, rfl⟩ := hends
        exact ⟨_, _, hrun.change hnode (.change hvalue ⟨hended, count, rfl⟩ hmarks) hended⟩

/-- Probes record every change and nothing else. Whatever calls are made of a network, the log holds
one record for each change of a probed node, in order, under the name that the node then has; and a
network whose links run in no circles comes through any calls. -/
theorem probes_record (hgrown : draft.Grown steps)
    (hacyclic : ∀ node, ¬ Relation.TransGen (DraftStep.Linked steps) node node) :
    (∀ network, BuiltFrom draft gates network → ∀ calls moments now,
      network.Recounts calls moments now → network.Logs moments now) ∧
    ((∀ node gate, .listen node gate ∈ steps → gate < gates) →
      (∃ network, BuiltFrom draft gates network) ∧
      (((Signals.ofDraft draft gates).cascadeAll.finish draft.netlist).pending = [] →
        ∀ network, ofDraft draft gates = .ok network ↔ BuiltFrom draft gates network) ∧
      ∀ network, BuiltFrom draft gates network →
        (∀ calls, (∀ node value, .set node value ∈ calls → node < draft.size) →
          ∃ moments now, network.Recounts calls moments now) ∧
        ∀ calls moments now, network.Recounts calls moments now → ∀ node value,
          ((now.signals.cascadeFrom node value).finish now.netlist).pending = [] →
          ∀ result, now.set node value = .ok result ↔ now.SetsTo node value result) := by
  have hrecords := hgrown.records
  refine ⟨fun network hbuilt calls moments now hrun => (hrun.follows hrecords hbuilt).logs,
    fun hgates => ⟨exists_builtFrom hrecords hacyclic hgates,
      fun hended => ofDraft_eq_ok_iff hrecords hgates hended, fun network hbuilt =>
      ⟨hbuilt.exists_recounts hrecords hacyclic hgates, ?_⟩⟩⟩
  intro calls moments now hrun node value hended
  exact (hrun.follows hrecords hbuilt).belongs.set_eq_ok_iff hrecords hgates hended

/-- A node whose only bit follows two bits of another node, the lower one first. -/
def rivals : List DraftStep :=
  [.addNode 2, .addNode 1, .link 0 (.single 0) 1 (.single 0), .link 0 (.single 1) 1 (.single 0)]

def rivalsDraft : Draft where
  netlist := ⟨#[2, 1],
    #[[.link ⟨.single 0, 1, .single 0⟩, .link ⟨.single 1, 1, .single 0⟩], []]⟩
  values := #[0, 0]

theorem grown_rivals : Draft.Grown rivals rivalsDraft :=
  .link (.link (.addNode (.addNode .empty 2) 1) (by decide) (by decide) rfl) (by decide)
    (by decide) rfl

theorem acyclic_rivals (node : Nat) :
    ¬ Relation.TransGen (DraftStep.Linked rivals) node node := by
  have hends : ∀ source target, DraftStep.Linked rivals source target →
      source = 0 ∧ target = 1 := by
    rintro source target ⟨bits, targetBits, hmem⟩
    simp [rivals] at hmem
    omega
  intro hloop
  obtain ⟨middle, hfirst, -⟩ := Relation.TransGen.head'_iff.mp hloop
  obtain ⟨before, -, hlast⟩ := Relation.TransGen.tail'_iff.mp hloop
  have hsource := (hends _ _ hfirst).1
  have htarget := (hends _ _ hlast).2
  omega

def rivalsNetwork : Network :=
  ⟨rivalsDraft.netlist,
    (Signals.ofDraft rivalsDraft 0).absorb (Signals.ofDraft rivalsDraft 0).cascadeAll⟩

/-- A node takes a value and loses it again in one cascade, and both is logged. -/
theorem probes_record_rivals : ∃ moments now, Draft.Grown rivals rivalsDraft ∧
    (∀ node, ¬ Relation.TransGen (DraftStep.Linked rivals) node node) ∧
    BuiltFrom rivalsDraft 0 rivalsNetwork ∧
    rivalsNetwork.Recounts [.probe 1 "bit", .set 0 1] moments now ∧
    rivalsNetwork.Logs moments now ∧
    now.log = [Signals.probeRecord "bit" 1, Signals.probeRecord "bit" 0] ∧
    ∀ calls, (∀ node value, .set node value ∈ calls → node < 2) →
      ∃ moments now, rivalsNetwork.Recounts calls moments now := by
  obtain ⟨hlogs, hruns⟩ := @probes_record rivals rivalsDraft 0 grown_rivals acyclic_rivals
  have hbuilt : BuiltFrom rivalsDraft 0 rivalsNetwork :=
    .intro ⟨by decide, 0, rfl⟩ fun gate hmark => by cases hmark
  have hprobed : rivalsNetwork.Recounts [.probe 1 "bit"] _ _ := .probe .start 1 "bit"
  have hends : ((rivalsNetwork.probe 1 "bit").signals.cascadeFrom 0 1).EndsIn
      (rivalsNetwork.probe 1 "bit").netlist _ := ⟨by decide, 3, rfl⟩
  have hbelongs := (hprobed.follows grown_rivals.records hbuilt).belongs
  have hset : (rivalsNetwork.probe 1 "bit").SetsTo 0 1 (true, _) :=
    .change (by decide) hends fun gate hmark => by
      obtain ⟨listened, hlisten⟩ := (hbelongs.keeps grown_rivals.records hends).2 gate hmark
      simp [rivals] at hlisten
  have hrun := hprobed.change (by decide) hset hends.1
  refine ⟨_, _, grown_rivals, acyclic_rivals, hbuilt, hrun, hlogs _ hbuilt _ _ _ hrun, by decide,
    ((hruns fun node gate hlisten => ?_).2.2 _ hbuilt).1⟩
  simp [rivals] at hlisten

end Network

end ClockedLogic
