import ClockedLogic.Proofs.Links
import ClockedLogic.Proofs.SignalOrder
import ClockedLogic.Proofs.Spread
import Mathlib.Data.Finset.Card
import Mathlib.Order.WellFounded

/-!
The fabric of a circuit: its gates and its netlist, which never change. Placing a well wired
component makes a fabric in which every bit has one driver at most, every gate listens to just its
inputs, changes from outside meet an owner before its parts, and every node has a level that
links and built in gates raise.
-/

namespace ClockedLogic

/-- The gates of a component that is placed on its own, before the nodes of its pins are made. -/
def Component.rootPlaced (sharing : Bool) (component : Component) : Placed Gate :=
  component.place sharing (List.range component.inputs.length)
    ((List.range component.outputs.length).map (component.inputs.length + ·))
    ⟨component.inputs.length + component.outputs.length, 0⟩

def IsRaised (statements : List Statement) (width : Nat → Nat) (node bit : Nat) : Prop :=
  ∃ bits, .raise node bits ∈ statements ∧ (spanAt width node bits).Covers bit

def Gate.Sets (root : Gate) (node : Nat) : Prop :=
  node ∈ root.inputs ∨ ∃ site chip, .builtIn site chip ∈ root.all ∧ node ∈ site.outputs

/-- Levels that links raise, and that built in gates raise from inputs that are not clocked. -/
structure Leveled (root : Gate) (netlist : Netlist) (level : Nat → Nat) : Prop where
  le : ∀ node, level node ≤ netlist.size
  links : ∀ source link, netlist.Leads source link → level source < level link.target
  gates : ∀ site kind, .builtIn site (.primitive kind) ∈ root.all → ∀ (position input : Nat),
    site.inputs[position]? = some input → kind.component.isInputClocked position = false →
    ∀ output ∈ site.outputs, level input < level output

/-- What holds of the gates of a circuit and of the draft that its netlist was made from. -/
structure Fabric (root : Gate) (draft : Draft) : Prop where
  tidy : draft.netlist.IsTidy
  listeners_size : draft.netlist.listeners.size = draft.netlist.size
  values_size : draft.values.size = draft.netlist.size
  indices : root.all.map Gate.index = List.range root.all.length
  pins_lt : ∀ gate ∈ root.all, ∀ role, ∀ node ∈ gate.nodesOf role, node < draft.netlist.size
  builtIns : ∀ site chip, .builtIn site chip ∈ root.all → ∃ kind, chip = .primitive kind ∧
    site.component = kind.component ∧ site.inputs.length = kind.component.inputs.length ∧
    site.outputs.length = kind.component.outputs.length ∧ site.outputs.Nodup
  listens : ∀ node index, .gate index ∈ draft.netlist.listenersOf node ↔
    ∃ gate ∈ root.all, gate.index = index ∧ node ∈ gate.inputs
  /-- What is set is not copied. -/
  sets_not_copied : ∀ node bit, root.Sets node → ¬ draft.netlist.IsCopied node bit
  /-- A node is set from one place only. -/
  outputs_apart : ∀ site site' chip chip' node, .builtIn site chip ∈ root.all →
    .builtIn site' chip' ∈ root.all → node ∈ site.outputs → node ∈ site'.outputs → site = site'
  entries_apart : ∀ site chip node, .builtIn site chip ∈ root.all → node ∈ site.outputs →
    node ∉ root.inputs
  /-- Bits that start as ones stay ones. -/
  ones_apart : ∀ node bit, bitOf draft.values node bit = true →
    ¬ draft.netlist.IsCopied node bit ∧ ¬ root.Sets node
  clocked : ∀ site internals parts, .composite site internals parts ∈ root.all →
    ∀ part ∈ parts, part.component.isClocked = true → site.component.isClocked = true
  /-- A change that starts outside an owner and reaches a part has reached the owner. -/
  spread : ∀ owner ∈ root.all, ∀ part ∈ owner.parts, ∀ (origin : Nat) (changed : Nat → Prop),
    root.Sets origin →
    (∀ site chip, .builtIn site chip ∈ owner.all → origin ∉ site.outputs) →
    (∀ node, changed node → node = origin ∨ ∃ source link, draft.netlist.Leads source link ∧
      link.target = node ∧ changed source) →
    ∀ node ∈ part.inputs, changed node → ∃ input ∈ owner.inputs, changed input
  levels : ∃ level, Leveled root draft.netlist level

/-- A relation without circles has levels, where everything is related to few elements only. -/
theorem exists_level_of_irrefl {r : Nat → Nat → Prop} (size : Nat)
    (hirrefl : ∀ node, ¬ Relation.TransGen r node node)
    (hlt : ∀ source node, r source node → source < size) :
    ∃ level : Nat → Nat, (∀ node, level node ≤ size) ∧
      ∀ source node, r source node → level source < level node := by
  classical
  refine ⟨fun node => ((Finset.range size).filter (Relation.TransGen r · node)).card,
    fun node => ?_, fun source node h => Finset.card_lt_card ?_⟩
  · exact Nat.le_trans (Finset.card_filter_le _ _) (Nat.le_of_eq (Finset.card_range size))
  · refine Finset.ssubset_iff_subset_ne.mpr ⟨fun earlier hearlier => ?_, fun heq => ?_⟩
    · rw [Finset.mem_filter] at hearlier ⊢
      exact ⟨hearlier.1, hearlier.2.tail h⟩
    · have hmem : source ∈ (Finset.range size).filter (Relation.TransGen r · node) :=
        Finset.mem_filter.mpr ⟨Finset.mem_range.mpr (hlt source node h), .single h⟩
      rw [← heq] at hmem
      exact hirrefl source (Finset.mem_filter.mp hmem).2

/-- A relation in which every element has a start has levels. -/
theorem exists_level {r : Nat → Nat → Prop} (size : Nat) (hwf : ∀ node, Acc r node)
    (hlt : ∀ source node, r source node → source < size) :
    ∃ level : Nat → Nat, (∀ node, level node ≤ size) ∧
      ∀ source node, r source node → level source < level node :=
  exists_level_of_irrefl size
    (fun node h => (WellFounded.transGen ⟨hwf⟩).irrefl.irrefl node h) hlt

namespace Component

variable {sharing : Bool} {component : Component}

theorem root_seat : Seat (List.range component.inputs.length)
    ((List.range component.outputs.length).map (component.inputs.length + ·))
    ⟨component.inputs.length + component.outputs.length, 0⟩ where
  inputs_lt node hnode := Nat.lt_add_right _ (List.mem_range.mp hnode)
  outputs_lt node hnode := by
    obtain ⟨position, hposition, rfl⟩ := List.mem_map.mp hnode
    exact Nat.add_lt_add_left (List.mem_range.mp hposition) _
  nodup := List.nodup_range.map fun _ _ h => Nat.add_left_cancel h

theorem root_isPlaced : IsPlaced component (List.range component.inputs.length)
    ((List.range component.outputs.length).map (component.inputs.length + ·))
    ⟨component.inputs.length + component.outputs.length, 0⟩ (component.rootPlaced sharing) :=
  isPlaced _ _ _ _ _

theorem root_owned : Owned (component.rootPlaced sharing).Has
    (· ∈ (component.rootPlaced sharing).result.inputs) (component.rootPlaced sharing)
    ⟨component.inputs.length + component.outputs.length, 0⟩ where
  has driver node hdriver _ _ := hdriver
  entries node hreaches hentry := by
    rw [root_isPlaced.inputs_eq, List.mem_range] at hentry
    rcases hreaches with ⟨hlow, -⟩ | hout
    · simp only at hlow
      omega
    · rw [root_isPlaced.outputs_eq] at hout
      obtain ⟨position, -, rfl⟩ := List.mem_map.mp hout
      omega

theorem root_laid (sharing : Bool) (h : WellWired component) :
    Laid (component.rootPlaced sharing).Has
    (· ∈ (component.rootPlaced sharing).result.inputs) (component.rootPlaced sharing).result :=
  laid h root_seat (by simp) (by simp) root_owned

theorem mem_placeRoot_iff {statement : Statement} (h : statement.added = 0) :
    statement ∈ (component.placeRoot sharing).statements ↔
      statement ∈ (component.rootPlaced sharing).statements := by
  have hnode : statement ∉ (component.inputs ++ component.outputs).map
    (Statement.node ·.width) := by
    intro hmem
    obtain ⟨_, -, rfl⟩ := List.mem_map.mp hmem
    cases h
  simp only [placeRoot, rootPlaced, List.mem_append, hnode, false_or]

theorem has_of_sets {node : Nat} (h : (component.rootPlaced sharing).result.Sets node) :
    node ∈ (component.rootPlaced sharing).result.inputs ∨
      ∃ gate, (component.rootPlaced sharing).Has (.gate gate) ∧
        (Driver.gate gate).Drives node ∧
        ∀ width bit, (Driver.gate gate).DrivesBit width node bit := by
  rcases h with hentry | ⟨site, chip, hgate, hout⟩
  · exact .inl hentry
  · exact .inr ⟨.builtIn site chip, hgate, hout, fun _ _ => hout⟩

theorem driver_of_feeds {placed : Placed Gate} {source node : Nat}
    (h : Feeds placed.Has source node) : ∃ driver, placed.Has driver ∧ driver.Drives node := by
  cases h with
  | link hlink => exact ⟨_, hlink, rfl⟩
  | gate hgate _ _ hout => exact ⟨_, hgate, hout⟩

/-- What drives anything among the gates of a placed component does not drive its inputs. -/
theorem not_entry (h : Fitted component) {driver : Driver} {node : Nat}
    (hdriver : (component.rootPlaced sharing).Has driver) (hdrives : driver.Drives node) :
    node ∉ (component.rootPlaced sharing).result.inputs :=
  root_owned.entries node (reaches h root_seat hdriver hdrives)

theorem root_grounded (sharing : Bool) (h : WellWired component) (node : Nat) :
    Grounded (component.rootPlaced sharing).Has node := by
  have hentries : ∀ entry ∈ (component.rootPlaced sharing).result.inputs,
      Grounded (component.rootPlaced sharing).Has entry := by
    intro entry hentry
    refine .intro entry fun source hfeeds => ?_
    obtain ⟨driver, hdriver, hdrives⟩ := driver_of_feeds hfeeds
    exact absurd hentry (not_entry h.fitted hdriver hdrives)
  have hpins := (root_laid sharing h).grounded_pins hentries
  refine .intro node fun source hfeeds => ?_
  obtain ⟨driver, hdriver, hdrives⟩ := driver_of_feeds hfeeds
  obtain ⟨gate, hgate, role, hnode⟩ := pin_of_driver h.fitted root_seat hdriver hdrives
  exact (hpins gate hgate role node hnode).inv hfeeds

/-- What holds of the draft that a fitted component makes when it is placed on its own. -/
structure Rendered (sharing : Bool) (component : Component) (width : Nat → Nat) (draft : Draft) :
    Prop where
  fitted : Fitted component
  executed : Draft.Executed width .empty (component.placeRoot sharing).statements draft
  feasible : ∀ statement ∈ (component.placeRoot sharing).statements,
    ∃ size, statement.IsFeasible width size
  housed : ∀ gate ∈ (component.rootPlaced sharing).result.all, Housed width draft.size gate

theorem exists_rendered (sharing : Bool) (h : Fitted component) : ∃ width draft,
    Draft.empty.executeAll (component.placeRoot sharing).statements = .ok draft ∧
      Rendered sharing component width draft := by
  obtain ⟨width, draft, hdraft, hexecuted, hfeasible, hhoused⟩ := @exists_draft sharing component h
  exact ⟨width, draft, hdraft, h, hexecuted, hfeasible, hhoused⟩

namespace Rendered

variable {width : Nat → Nat} {draft : Draft}

theorem pins_lt (h : Rendered sharing component width draft) {gate : Gate}
    (hgate : gate ∈ (component.rootPlaced sharing).result.all) {role : PinRole} {node : Nat}
    (hnode : node ∈ gate.nodesOf role) : node < draft.netlist.size :=
  (h.housed gate hgate role).lt_of_mem hnode

theorem unique (h : Rendered sharing component width draft) {driver other : Driver} {node bit : Nat}
    (hdriver : (component.rootPlaced sharing).Has driver)
    (hother : (component.rootPlaced sharing).Has other) (hbit : driver.DrivesBit width node bit)
    (hbit' : other.DrivesBit width node bit) : driver = other :=
  driver_unique h.fitted root_seat root_owned h.housed
    (reaches h.fitted root_seat hdriver hbit.drives) hdriver hother hbit hbit'

theorem not_sets (h : Rendered sharing component width draft) {statement : Statement}
    {node bit : Nat} (hstatement : (component.rootPlaced sharing).Has (.statement statement))
    (hbit : (Driver.statement statement).DrivesBit width node bit) :
    ¬ (component.rootPlaced sharing).result.Sets node := by
  intro hsets
  rcases has_of_sets hsets with hentry | ⟨gate, hgate, -, hall⟩
  · exact not_entry h.fitted hstatement hbit.drives hentry
  · cases h.unique hstatement hgate hbit (hall width bit)

theorem leads_iff (h : Rendered sharing component width draft) {source : Nat} {link : Link} :
    draft.netlist.Leads source link ↔ ∃ bits target targetBits,
      (component.rootPlaced sharing).Has (.statement (.link source bits target targetBits)) ∧
      link = ⟨spanAt width source bits, target, spanAt width target targetBits⟩ := by
  rw [Netlist.Leads, h.executed.listeners]
  constructor
  · intro hcases
    rcases hcases with hnone | ⟨statement, hmem, hadds⟩
    · cases hnone
    · cases statement with
      | node => exact hadds.elim
      | listen => cases hadds.2
      | link found bits target targetBits =>
        obtain ⟨rfl, hlink⟩ := hadds
        exact ⟨bits, target, targetBits, (mem_placeRoot_iff rfl).mp hmem, Listener.link.inj hlink⟩
      | raise => exact hadds.elim
  · intro hexists
    obtain ⟨bits, target, targetBits, hmem, rfl⟩ := hexists
    exact .inr ⟨_, (mem_placeRoot_iff rfl).mpr hmem, rfl, rfl⟩

theorem listens_iff (h : Rendered sharing component width draft) (node index : Nat) :
    .gate index ∈ draft.netlist.listenersOf node ↔
      ∃ gate ∈ (component.rootPlaced sharing).result.all, gate.index = index ∧
        node ∈ gate.inputs := by
  rw [h.executed.listeners, ← root_isPlaced.listens]
  constructor
  · intro hcases
    rcases hcases with hnone | ⟨statement, hmem, hadds⟩
    · cases hnone
    · cases statement with
      | node => exact hadds.elim
      | listen listened gate =>
        obtain ⟨rfl, hgate⟩ := hadds
        rw [Listener.gate.inj hgate]
        exact (mem_placeRoot_iff rfl).mp hmem
      | link => cases hadds.2
      | raise => exact hadds.elim
  · intro hmem
    exact .inr ⟨_, (mem_placeRoot_iff rfl).mpr hmem, rfl, rfl⟩

theorem drivesBit_of_leads (h : Rendered sharing component width draft) {source : Nat} {link : Link}
    (hlink : draft.netlist.Leads source link) {bit : Nat} (hcovers : link.targetBits.Covers bit) :
    ∃ bits targetBits, (component.rootPlaced sharing).Has
        (.statement (.link source bits link.target targetBits)) ∧
      (Driver.statement
        (.link source bits link.target targetBits)).DrivesBit width link.target bit ∧
      link = ⟨spanAt width source bits, link.target, spanAt width link.target targetBits⟩ := by
  obtain ⟨bits, target, targetBits, hhas, rfl⟩ := h.leads_iff.mp hlink
  exact ⟨bits, targetBits, hhas, ⟨rfl, hcovers⟩, rfl⟩

theorem not_copied (h : Rendered sharing component width draft) {node : Nat}
    (hsets : (component.rootPlaced sharing).result.Sets node) (bit : Nat) :
    ¬ draft.netlist.IsCopied node bit := by
  intro hexists
  obtain ⟨source, link, hlink, rfl, hcovers⟩ := hexists
  obtain ⟨bits, targetBits, hhas, hbit, -⟩ := h.drivesBit_of_leads hlink hcovers
  exact h.not_sets hhas hbit hsets

/-- The bits that start as ones are those that are raised. -/
theorem value_iff (h : Rendered sharing component width draft) (node bit : Nat) :
    bitOf draft.values node bit = true ↔
      ∃ bits, (component.rootPlaced sharing).Has (.statement (.raise node bits)) ∧
        (spanAt width node bits).Covers bit := by
  refine (h.executed.values node bit).trans ⟨?_, ?_⟩
  · intro hcases
    rcases hcases with hzero | ⟨statement, hmem, hraises⟩
    · simp [Draft.empty] at hzero
    · cases statement with
      | raise target bits =>
        obtain ⟨rfl, hcovers⟩ := hraises
        exact ⟨bits, (mem_placeRoot_iff rfl).mp hmem, hcovers⟩
      | _ => exact hraises.elim
  · intro hexists
    obtain ⟨bits, hmem, hcovers⟩ := hexists
    exact .inr ⟨_, (mem_placeRoot_iff rfl).mpr hmem, rfl, hcovers⟩

/-- Driven spans are as the netlist knows the widths of its nodes. -/
theorem spanAt_eq (h : Rendered sharing component width draft) {driver : Driver} {node : Nat}
    (hdriver : (component.rootPlaced sharing).Has driver) (hdrives : driver.Drives node)
    (bits : Option BitSpan) : spanAt draft.netlist.width node bits = spanAt width node bits := by
  obtain ⟨gate, hgate, role, hnode⟩ := pin_of_driver h.fitted root_seat hdriver hdrives
  rw [spanAt, h.executed.hasWidths.width_eq node (h.pins_lt hgate hnode), spanAt]

theorem raised_iff (h : Rendered sharing component width draft) (node bit : Nat) :
    bitOf draft.values node bit = true ↔
      IsRaised (component.placeRoot sharing).statements draft.netlist.width node bit := by
  rw [h.value_iff]
  constructor
  · intro hexists
    obtain ⟨bits, hhas, hcovers⟩ := hexists
    exact ⟨bits, (mem_placeRoot_iff rfl).mpr hhas, by rwa [h.spanAt_eq hhas rfl]⟩
  · intro hexists
    obtain ⟨bits, hmem, hcovers⟩ := hexists
    have hhas : (component.rootPlaced sharing).Has (.statement (.raise node bits)) :=
      (mem_placeRoot_iff rfl).mp hmem
    exact ⟨bits, hhas, by rwa [← h.spanAt_eq hhas rfl]⟩

/-- Bits that start as ones have no other driver. -/
theorem ones_apart (h : Rendered sharing component width draft) {node bit : Nat}
    (hone : bitOf draft.values node bit = true) :
    ¬ draft.netlist.IsCopied node bit ∧ ¬ (component.rootPlaced sharing).result.Sets node := by
  obtain ⟨bits, hhas, hcovers⟩ := (h.value_iff node bit).mp hone
  have hraises : (Driver.statement (.raise node bits)).DrivesBit width node bit := ⟨rfl, hcovers⟩
  refine ⟨?_, h.not_sets hhas hraises⟩
  intro hexists
  obtain ⟨source, link, hlink, rfl, hcopied⟩ := hexists
  obtain ⟨_, _, hhas', hbit, -⟩ := h.drivesBit_of_leads hlink hcopied
  cases h.unique hhas hhas' hraises hbit

theorem source_lt (h : Rendered sharing component width draft) {source node : Nat}
    (hfeeds : Feeds (component.rootPlaced sharing).Has source node) :
    source < draft.netlist.size := by
  cases hfeeds with
  | link hlink =>
    have hleads := h.leads_iff.mpr ⟨_, _, _, hlink, rfl⟩
    rw [Netlist.Leads, Netlist.listenersOf, Array.getD_eq_getD_getElem?] at hleads
    by_contra hge
    rw [Array.getElem?_eq_none] at hleads
    · cases hleads
    · rw [h.executed.hasWidths.listeners_size]
      exact Nat.le_of_not_lt hge
  | gate hgate hinput _ _ =>
    exact @pins_lt _ _ _ _ h _ hgate .input _ (List.mem_of_getElem? hinput)

end Rendered

/-- What holds of the draft that a well wired component makes when it is placed on its own. -/
structure Drafted (sharing : Bool) (component : Component) (width : Nat → Nat) (draft : Draft) :
    Prop where
  wellWired : WellWired component
  executed : Draft.Executed width .empty (component.placeRoot sharing).statements draft
  feasible : ∀ statement ∈ (component.placeRoot sharing).statements,
    ∃ size, statement.IsFeasible width size
  housed : ∀ gate ∈ (component.rootPlaced sharing).result.all, Housed width draft.size gate

theorem Rendered.drafted {width : Nat → Nat} {draft : Draft}
    (h : Rendered sharing component width draft) (hwired : WellWired component) :
    Drafted sharing component width draft :=
  ⟨hwired, h.executed, h.feasible, h.housed⟩

namespace Drafted

variable {width : Nat → Nat} {draft : Draft}

theorem rendered (h : Drafted sharing component width draft) :
    Rendered sharing component width draft :=
  ⟨h.wellWired.fitted, h.executed, h.feasible, h.housed⟩

theorem exists_leveled (h : Drafted sharing component width draft) :
    ∃ level, Leveled (component.rootPlaced sharing).result draft.netlist level := by
  obtain ⟨level, hlevel, hfeeds⟩ := exists_level draft.netlist.size
    (root_grounded sharing h.wellWired) fun source node => h.rendered.source_lt
  refine ⟨level, hlevel, fun source link hlink => ?_, ?_⟩
  · obtain ⟨bits, target, targetBits, hhas, rfl⟩ := h.rendered.leads_iff.mp hlink
    exact hfeeds _ _ (.link hhas)
  · intro site kind hgate position input hinput hclocked output hout
    exact hfeeds _ _ (.gate hgate hinput hclocked hout)

theorem isTidy (h : Drafted sharing component width draft) : draft.netlist.IsTidy := by
  refine ⟨?_, ?_, ?_, ?_⟩
  · intro source link hlink
    obtain ⟨bits, target, targetBits, hhas, rfl⟩ := h.rendered.leads_iff.mp hlink
    obtain ⟨gate, hgate, role, hnode⟩ := pin_of_driver h.wellWired.fitted root_seat hhas rfl
    exact h.rendered.pins_lt hgate hnode
  · intro source link hlink
    obtain ⟨bits, target, targetBits, hhas, rfl⟩ := h.rendered.leads_iff.mp hlink
    obtain ⟨size, -, -, heven⟩ := h.feasible _ ((mem_placeRoot_iff rfl).mpr hhas)
    exact heven
  · intro source link hlink hloop
    obtain ⟨level, hlevel⟩ := h.exists_leveled
    have hlt := hlevel.links source link hlink
    rw [hloop] at hlt
    exact Nat.lt_irrefl _ hlt
  · intro source source' link link' bit hlink hlink' htarget hcovers hcovers'
    obtain ⟨bits, targetBits, hhas, hbit, hmade⟩ := h.rendered.drivesBit_of_leads hlink hcovers
    obtain ⟨bits', targetBits', hhas', hbit', hmade'⟩ :=
      h.rendered.drivesBit_of_leads hlink' hcovers'
    rw [htarget] at hhas hbit hmade
    have hsame := h.rendered.unique hhas hhas' hbit hbit'
    simp only [Driver.statement.injEq, Statement.link.injEq] at hsame
    obtain ⟨rfl, rfl, -, rfl⟩ := hsame
    exact ⟨rfl, hmade.trans hmade'.symm⟩

/-- A composite gate takes part in clock edges if one of its parts does. -/
theorem clocked_of_part (h : Drafted sharing component width draft) {site : Site}
    {internals : List Nat} {parts : List Gate}
    (hgate : .composite site internals parts ∈ (component.rootPlaced sharing).result.all)
    {part : Gate} (hpart : part ∈ parts) (hclocked : part.component.isClocked = true) :
    site.component.isClocked = true := by
  cases (root_laid sharing h.wellWired).of_mem_all hgate with
  | composite pairs hcomponent _ hparts hgates hwiring _ hsame _ _ =>
    rw [hgates] at hpart
    obtain ⟨pair, hpair, rfl⟩ := List.mem_map.mp hpart
    rw [hsame pair hpair] at hclocked
    rw [hcomponent]
    exact hwiring.clocked pair.1 (hparts ▸ List.mem_map_of_mem hpair) hclocked

/-- Changes that start where a value may be set spread along links. -/
theorem spreadsFrom (h : Drafted sharing component width draft) {origin : Nat}
    {changed : Nat → Prop} (hsets : (component.rootPlaced sharing).result.Sets origin)
    (hback : ∀ node, changed node → node = origin ∨ ∃ source link,
      draft.netlist.Leads source link ∧ link.target = node ∧ changed source) :
    SpreadsFrom (component.rootPlaced sharing).Has
      (· ∈ (component.rootPlaced sharing).result.inputs) origin changed := by
  refine ⟨?_, fun node hchanged => ?_⟩
  · rcases has_of_sets hsets with hentry | ⟨gate, hgate, hdrives, -⟩
    · exact .inl hentry
    · exact .inr ⟨gate, hgate, hdrives⟩
  · rcases hback node hchanged with rfl | ⟨source, link, hlink, rfl, hsource⟩
    · exact .inl rfl
    · obtain ⟨bits, target, targetBits, hhas, rfl⟩ := h.rendered.leads_iff.mp hlink
      exact .inr ⟨source, bits, targetBits, hhas, hsource⟩

/-- A change that starts outside an owner and reaches a part has reached the owner. -/
theorem reaches_owner (h : Drafted sharing component width draft) {owner part : Gate}
    (howner : owner ∈ (component.rootPlaced sharing).result.all) (hpart : part ∈ owner.parts)
    {origin : Nat} {changed : Nat → Prop}
    (hsets : (component.rootPlaced sharing).result.Sets origin)
    (houtside : ∀ site chip, .builtIn site chip ∈ owner.all → origin ∉ site.outputs)
    (hback : ∀ node, changed node → node = origin ∨ ∃ source link,
      draft.netlist.Leads source link ∧ link.target = node ∧ changed source)
    {node : Nat} (hnode : node ∈ part.inputs) (hchanged : changed node) :
    ∃ input ∈ owner.inputs, changed input := by
  refine ((root_laid sharing h.wellWired).of_mem_all howner).input_changed
    (h.spreadsFrom hsets hback) (fun inner hinner hdrives => ?_) hpart hnode hchanged
  cases inner with
  | builtIn site chip => exact houtside site chip hinner hdrives
  | composite => exact hdrives

/-- A change that starts at an input of the circuit reaches inputs only. -/
theorem driven_not_changed (h : Drafted sharing component width draft) {origin : Nat}
    {changed : Nat → Prop} (hentry : origin ∈ (component.rootPlaced sharing).result.inputs)
    (hback : ∀ node, changed node → node = origin ∨ ∃ source link,
      draft.netlist.Leads source link ∧ link.target = node ∧ changed source)
    {gate : Gate} (hgate : gate ∈ (component.rootPlaced sharing).result.all) {role : PinRole}
    (hrole : role ≠ .input) {node : Nat} (hnode : node ∈ gate.nodesOf role) : ¬ changed node := by
  refine ((root_laid sharing h.wellWired).of_mem_all hgate).not_changed
    (h.spreadsFrom (.inl hentry) hback) (fun inner hinner hdrives => ?_) role hrole node hnode
  have hhas : (component.rootPlaced sharing).Has (.gate inner) := Gate.mem_all_trans hinner hgate
  exact not_entry h.wellWired.fitted hhas hdrives hentry

theorem fabric (h : Drafted sharing component width draft) :
    Fabric (component.rootPlaced sharing).result draft where
  tidy := h.isTidy
  listeners_size := h.executed.hasWidths.listeners_size
  values_size := h.executed.hasWidths.values_size
  indices := root_isPlaced.indices.trans List.range_eq_range'.symm
  pins_lt gate hgate role node hnode := h.rendered.pins_lt hgate hnode
  builtIns site chip hgate := by
    cases (root_laid sharing h.wellWired).of_mem_all hgate with
    | builtIn hcomponent hin hout hnodup _ _ => exact ⟨_, rfl, hcomponent, hin, hout, hnodup⟩
  listens := h.rendered.listens_iff
  sets_not_copied node bit hsets := h.rendered.not_copied hsets bit
  outputs_apart site site' chip chip' node hgate hgate' hout hout' := by
    have hsame := @Rendered.unique _ _ _ _ h.rendered (.gate (.builtIn site chip))
      (.gate (.builtIn site' chip')) node 0 hgate hgate' hout hout'
    simp only [Driver.gate.injEq, Gate.builtIn.injEq] at hsame
    exact hsame.1
  entries_apart site chip node hgate hout :=
    @not_entry _ _ h.wellWired.fitted (.gate (.builtIn site chip)) node hgate hout
  ones_apart node bit hone := h.rendered.ones_apart hone
  clocked site internals parts hgate part hpart := h.clocked_of_part hgate hpart
  spread owner howner part hpart origin changed hsets houtside hback node hnode hchanged :=
    h.reaches_owner howner hpart hsets houtside hback hnode hchanged
  levels := h.exists_leveled

end Drafted

theorem exists_fabric (sharing : Bool) (h : WellWired component) :
    ∃ draft, Draft.empty.executeAll (component.placeRoot sharing).statements = .ok draft ∧
      Fabric (component.placeRoot sharing).result draft ∧
      ∀ node bit, bitOf draft.values node bit = true ↔
        IsRaised (component.placeRoot sharing).statements draft.netlist.width node bit := by
  obtain ⟨width, draft, hdraft, hrendered⟩ := exists_rendered sharing h.fitted
  exact ⟨draft, hdraft, (hrendered.drafted h).fabric, hrendered.raised_iff⟩

end Component

end ClockedLogic
