import ClockedLogic.Network.Cascade
import ClockedLogic.Proofs.Wiring
import Mathlib.Data.Finset.Prod

/-!
Links bit by bit. A link copies each of its source bits to one target bit. In a tidy netlist a link
joins equally many bits of two nodes, and no bit is the target of two links.
-/

namespace ClockedLogic

def bitOf (values : Array Word) (node bit : Nat) : Bool := (values.getD node 0).getLsbD bit

theorem getD_eq_of_bitOf {values other : Array Word} {node : Nat}
    (h : ∀ bit < 16, bitOf values node bit = bitOf other node bit) :
    values.getD node 0 = other.getD node 0 := BitVec.eq_of_getLsbD_eq h

theorem exists_bit_of_ne {values other : Array Word} {node : Nat}
    (h : values.getD node 0 ≠ other.getD node 0) :
    ∃ bit < 16, bitOf values node bit ≠ bitOf other node bit := by
  by_contra hnone
  push Not at hnone
  exact h (getD_eq_of_bitOf hnone)

theorem getD_ne_of_bit {values other : Array Word} {node bit : Nat}
    (h : bitOf values node bit ≠ bitOf other node bit) :
    values.getD node 0 ≠ other.getD node 0 := by
  intro heq
  exact h (by rw [bitOf, bitOf, heq])

theorem getD_setIfInBounds {values : Array Word} {node : Nat} (hnode : node < values.size)
    (word : Word) (other : Nat) :
    (values.setIfInBounds node word).getD other 0 =
      if node = other then word else values.getD other 0 := by
  simp only [Array.getD_eq_getD_getElem?, Array.getElem?_setIfInBounds]
  split
  · rename_i heq
    subst heq
    simp
  · rfl

theorem getLsbD_zero (bit : Nat) : (0 : Word).getLsbD bit = false := BitVec.getLsbD_zero

theorem getD_replicate_zero (size node : Nat) :
    (Array.replicate size (0 : Word)).getD node 0 = 0 := by
  rw [Array.getD_eq_getD_getElem?, Array.getElem?_replicate]
  split <;> rfl

theorem bitOf_replicate_zero (size node bit : Nat) :
    bitOf (Array.replicate size 0) node bit = false := by
  rw [bitOf, getD_replicate_zero, getLsbD_zero]

def Link.sourceBit (link : Link) (bit : Nat) : Nat := link.bits.low + (bit - link.targetBits.low)

/-- Whether the target of a link has the bits that the link copies. -/
def Link.Holds (link : Link) (source : Nat) (values : Array Word) : Prop :=
  ∀ bit, link.targetBits.Covers bit →
    bitOf values link.target bit = bitOf values source (link.sourceBit bit)

namespace Netlist

def Leads (netlist : Netlist) (source : Nat) (link : Link) : Prop :=
  .link link ∈ netlist.listenersOf source

def IsCopied (netlist : Netlist) (node bit : Nat) : Prop :=
  ∃ source link, netlist.Leads source link ∧ link.target = node ∧ link.targetBits.Covers bit

/-- A netlist whose links join equally many bits of different nodes, each target bit once. -/
structure IsTidy (netlist : Netlist) : Prop where
  target_lt : ∀ source link, netlist.Leads source link → link.target < netlist.size
  even : ∀ source link, netlist.Leads source link → link.bits.width = link.targetBits.width
  no_loop : ∀ source link, netlist.Leads source link → link.target ≠ source
  apart : ∀ source source' link link' bit, netlist.Leads source link →
    netlist.Leads source' link' → link.target = link'.target → link.targetBits.Covers bit →
    link'.targetBits.Covers bit → source = source' ∧ link = link'

end Netlist

theorem getLsbD_follow {link : Link} (heven : link.bits.width = link.targetBits.width)
    (old value : Word) (bit : Nat) :
    (link.targetBits.splice old (link.bits.extract value)).getLsbD bit =
      if link.targetBits.Covers bit then value.getLsbD (link.sourceBit bit)
      else old.getLsbD bit := by
  rw [BitSpan.getLsbD_splice, BitSpan.getLsbD_extract, heven]
  have hwidth := link.targetBits.low_add_width
  by_cases hcovers : link.targetBits.low ≤ bit ∧ bit ≤ link.targetBits.high
  · have hlt : bit - link.targetBits.low < link.targetBits.width := by omega
    rw [if_pos hcovers, if_pos (show link.targetBits.Covers bit from hcovers)]
    simp [hlt, Link.sourceBit]
  · rw [if_neg hcovers, if_neg (show ¬ link.targetBits.Covers bit from hcovers)]

end ClockedLogic
