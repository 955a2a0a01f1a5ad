import Mathlib.Data.Finset.Card
import Mathlib.Order.WellFounded

/-!
# Quorums and locked voting

Votes in rounds, with two thirds quorums, some of whose members are faulty.

* `IsQuorum.exists_correct_inter` — two quorums share a correct member when
  less than a third is faulty;
* `Ballot.Locked.agreement` — values that gather a quorum of precommits are
  equal, in whatever rounds, when the correct members prevote once a round,
  precommit behind a quorum of prevotes, and stay with what they precommitted
  until a later quorum of prevotes releases them.
-/

namespace NoirNet.Lib

def IsQuorum {α : Type*} (n : Nat) (voters : Finset α) : Prop := n * 2 < voters.card * 3

theorem IsQuorum.exists_correct_inter {α : Type*} [DecidableEq α] {n : Nat}
    {members faulty voters voters' : Finset α} (hsize : members.card ≤ n)
    (hfaulty : faulty.card * 3 < n) (hquorum : IsQuorum n voters) (hquorum' : IsQuorum n voters')
    (hmembers : voters ⊆ members) (hmembers' : voters' ⊆ members) :
    ∃ a, a ∉ faulty ∧ a ∈ voters ∧ a ∈ voters' := by
  by_contra hnone
  have hinter : voters ∩ voters' ⊆ faulty := by
    intro a ha
    obtain ⟨hleft, hright⟩ := Finset.mem_inter.mp ha
    by_contra hcorrect
    exact hnone ⟨a, hcorrect, hleft, hright⟩
  have hunion : (voters ∪ voters').card ≤ n :=
    calc
      (voters ∪ voters').card ≤ members.card :=
        Finset.card_le_card (Finset.union_subset hmembers hmembers')
      _ ≤ n := hsize
  have hcard := Finset.card_le_card hinter
  have hsum := Finset.card_union_add_card_inter voters voters'
  unfold IsQuorum at hquorum hquorum'
  omega

/-- Who may vote on a value, and in which round who has voted for what. -/
structure Ballot (α ρ β : Type*) where
  size : Nat
  members : Finset α
  faulty : Finset α
  prevoted : ρ → β → α → Prop
  precommitted : ρ → β → α → Prop

namespace Ballot

variable {α ρ β : Type*}

/-- A quorum of members each of whom is faulty or has voted for the value in the
round. -/
def Certified (ballot : Ballot α ρ β) (voted : ρ → β → α → Prop) (round : ρ) (value : β) :
    Prop :=
  ∃ voters ⊆ ballot.members, IsQuorum ballot.size voters ∧
    ∀ a ∈ voters, a ∉ ballot.faulty → voted round value a

theorem Certified.mono {ballot : Ballot α ρ β} {voted voted' : ρ → β → α → Prop} {round : ρ}
    {value : β} (h : ballot.Certified voted round value)
    (hvoted : ∀ a, voted round value a → voted' round value a) :
    ballot.Certified voted' round value := by
  obtain ⟨voters, hmembers, hquorum, hall⟩ := h
  exact ⟨voters, hmembers, hquorum, fun a ha hcorrect => hvoted a (hall a ha hcorrect)⟩

/-- Two certificates have a correct voter in common. -/
theorem Certified.exists_common [DecidableEq α] {ballot : Ballot α ρ β}
    {voted voted' : ρ → β → α → Prop} {round round' : ρ} {value value' : β}
    (hsize : ballot.members.card ≤ ballot.size)
    (hfaulty : ballot.faulty.card * 3 < ballot.size)
    (h : ballot.Certified voted round value) (h' : ballot.Certified voted' round' value') :
    ∃ a, a ∉ ballot.faulty ∧ voted round value a ∧ voted' round' value' a := by
  obtain ⟨voters, hmembers, hquorum, hall⟩ := h
  obtain ⟨voters', hmembers', hquorum', hall'⟩ := h'
  obtain ⟨a, hcorrect, ha, ha'⟩ :=
    hquorum.exists_correct_inter hsize hfaulty hquorum' hmembers hmembers'
  exact ⟨a, hcorrect, hall a ha hcorrect, hall' a ha' hcorrect⟩

structure Locked [LT ρ] (ballot : Ballot α ρ β) : Prop where
  prevote_unique : ∀ a ∉ ballot.faulty, ∀ round value value',
    ballot.prevoted round value a → ballot.prevoted round value' a → value = value'
  precommit_certified : ∀ a ∉ ballot.faulty, ∀ round value, ballot.precommitted round value a →
    ballot.Certified ballot.prevoted round value
  lock : ∀ a ∉ ballot.faulty, ∀ round value later value', ballot.precommitted round value a →
    round < later → ballot.prevoted later value' a → value ≠ value' →
    ∃ between, round < between ∧ between < later ∧
      ballot.Certified ballot.prevoted between value'

namespace Locked

variable [DecidableEq α] [LinearOrder ρ] [WellFoundedLT ρ] {ballot : Ballot α ρ β}

/-- Behind a quorum of precommits only their value gathers quorums of prevotes. -/
theorem prevotes_of_precommits (hlocked : ballot.Locked)
    (hsize : ballot.members.card ≤ ballot.size)
    (hfaulty : ballot.faulty.card * 3 < ballot.size) {round : ρ} {value : β}
    (hcommit : ballot.Certified ballot.precommitted round value) (later : ρ) :
    round ≤ later → ∀ value', ballot.Certified ballot.prevoted later value' →
      value = value' := by
  induction later using WellFoundedLT.induction with
  | ind later ih =>
      intro hle value' hcertified
      obtain ⟨a, hcorrect, hprecommit, hprevote⟩ :=
        hcommit.exists_common hsize hfaulty hcertified
      rcases hle.eq_or_lt with rfl | hlt
      · -- in the same round a correct member has prevoted for both
        have hbehind := hlocked.precommit_certified a hcorrect round value hprecommit
        obtain ⟨b, hb, hvote, hvote'⟩ := hbehind.exists_common hsize hfaulty hcertified
        exact hlocked.prevote_unique b hb round value value' hvote hvote'
      · -- a correct member has left its lock, so a quorum in between released it
        by_contra hne
        obtain ⟨between, hafter, hbefore, hrelease⟩ :=
          hlocked.lock a hcorrect round value later value' hprecommit hlt hprevote hne
        exact hne (ih between hbefore hafter.le value' hrelease)

theorem agreement_of_le (hlocked : ballot.Locked) (hsize : ballot.members.card ≤ ballot.size)
    (hfaulty : ballot.faulty.card * 3 < ballot.size) {round round' : ρ} {value value' : β}
    (hle : round ≤ round') (h : ballot.Certified ballot.precommitted round value)
    (h' : ballot.Certified ballot.precommitted round' value') : value = value' := by
  obtain ⟨a, hcorrect, hprecommit, -⟩ := h'.exists_common hsize hfaulty h'
  have hprevotes := hlocked.precommit_certified a hcorrect round' value' hprecommit
  exact hlocked.prevotes_of_precommits hsize hfaulty h round' hle value' hprevotes

/-- Values that gather a quorum of precommits are equal, whatever the rounds. -/
theorem agreement (hlocked : ballot.Locked) (hsize : ballot.members.card ≤ ballot.size)
    (hfaulty : ballot.faulty.card * 3 < ballot.size) {round round' : ρ} {value value' : β}
    (h : ballot.Certified ballot.precommitted round value)
    (h' : ballot.Certified ballot.precommitted round' value') : value = value' := by
  rcases le_total round round' with hle | hle
  · exact hlocked.agreement_of_le hsize hfaulty hle h h'
  · exact (hlocked.agreement_of_le hsize hfaulty hle h' h).symm

end Locked

end Ballot

end NoirNet.Lib
