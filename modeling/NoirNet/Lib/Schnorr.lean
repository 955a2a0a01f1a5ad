import Mathlib.Algebra.Field.ZMod
import Mathlib.Algebra.Module.Torsion.Field
import Mathlib.GroupTheory.SpecificGroups.Cyclic.Basic

/-!
# Schnorr's equation

A response `s` answers the challenge `c` to a commitment `r` under a public point
when `s • base = r + c • point`.  The group has prime order and the challenge may
depend on the commitment in any way.

* `accepts_honest`: whoever knows the secret of the point answers every challenge;
* `existsUnique_response`: to every commitment there is one response;
* `ncard_transcripts`: there are as many answered commitments as group elements.
-/

namespace NoirNet.Lib.Schnorr

variable {q : ℕ} {G : Type*} [AddCommGroup G] [Module (ZMod q) G]

/-- The response answers the challenge to the commitment. -/
def Accepts (base point : G) (c : ZMod q) (r : G) (s : ZMod q) : Prop :=
  s • base = r + c • point

theorem accepts_honest (base : G) (secret nonce c : ZMod q) :
    Accepts base (secret • base) c (nonce • base) (nonce + c * secret) := by
  rw [Accepts, add_smul, mul_smul]

variable [Fact q.Prime]

theorem exists_smul_eq (hcard : Nat.card G = q) {base : G} (hbase : base ≠ 0) (g : G) :
    ∃ s : ZMod q, s • base = g := by
  obtain ⟨n, hn⟩ := AddSubgroup.mem_zmultiples_iff.mp (mem_zmultiples_of_prime_card hcard hbase)
  exact ⟨(n : ZMod q), (Int.cast_smul_eq_zsmul (ZMod q) n base).trans hn⟩

theorem existsUnique_response (hcard : Nat.card G = q) {base : G} (hbase : base ≠ 0)
    (point : G) (c : ZMod q) (r : G) : ∃! s, Accepts base point c r s := by
  obtain ⟨s, hs⟩ := exists_smul_eq hcard hbase (r + c • point)
  refine ⟨s, hs, ?_⟩
  intro s' hs'
  exact smul_left_injective (ZMod q) hbase (hs'.trans hs.symm)

def transcripts (base point : G) (challenge : G → ZMod q) : Set (G × ZMod q) :=
  {t | Accepts base point (challenge t.1) t.1 t.2}

/-- An answered commitment determines its response. -/
theorem eq_of_commitment_eq (hcard : Nat.card G = q) {base point : G} (hbase : base ≠ 0)
    {challenge : G → ZMod q} {t t' : G × ZMod q} (ht : t ∈ transcripts base point challenge)
    (ht' : t' ∈ transcripts base point challenge) (h : t.1 = t'.1) : t = t' := by
  have hresponse := existsUnique_response hcard hbase point (challenge t'.1) t'.1
  have haccepts : Accepts base point (challenge t'.1) t'.1 t.2 := by
    rw [← h]
    exact ht
  exact Prod.ext h (hresponse.unique haccepts ht')

theorem ncard_transcripts (hcard : Nat.card G = q) {base : G} (hbase : base ≠ 0)
    (point : G) (challenge : G → ZMod q) : (transcripts base point challenge).ncard = q := by
  choose response haccepts hunique using
    fun r => existsUnique_response hcard hbase point (challenge r) r
  have hrange : transcripts base point challenge = Set.range fun r => (r, response r) := by
    ext t
    constructor
    · intro ht
      exact ⟨t.1, Prod.ext rfl (hunique t.1 t.2 ht).symm⟩
    · intro ht
      obtain ⟨r, rfl⟩ := ht
      exact haccepts r
  have hinjective : Function.Injective fun r => (r, response r) := by
    intro r r' h
    exact congrArg Prod.fst h
  rw [hrange, ← Set.image_univ, Set.ncard_image_of_injective _ hinjective, Set.ncard_univ, hcard]

end NoirNet.Lib.Schnorr
