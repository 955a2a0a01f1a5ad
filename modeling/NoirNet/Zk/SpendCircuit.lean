import Mathlib.Algebra.Field.Defs
import NoirNet.Primitives

/-!
# The spend circuit and its proofs

`noirnet_zk::spend` and `noirnet_zk::proof`.  `bellpepper` and `nova-snark` are
external: a constraint system is what one synthesis leaves in it, and the
recursive SNARK is the class `Nova`, whose `verify` is taken under the
parameters of `setup_nova`.
-/

namespace NoirNet

/-! ## Constraint systems -/

/-- What a synthesis records: the values it allocates as public inputs and as
witness, and the three sides of each constraint `a * b = c`. -/
structure ConstraintSystem (F : Type) where
  inputs : List F := []
  aux : List F := []
  constraints : List (F × F × F) := []

namespace ConstraintSystem

variable {F : Type}

/-- `AllocatedNum::alloc`: one more witness variable. -/
def alloc (cs : ConstraintSystem F) (value : F) : ConstraintSystem F :=
  { cs with aux := cs.aux ++ [value] }

def enforce (cs : ConstraintSystem F) (a b c : F) : ConstraintSystem F :=
  { cs with constraints := cs.constraints ++ [(a, b, c)] }

def Satisfied [Mul F] (cs : ConstraintSystem F) : Prop :=
  ∀ abc ∈ cs.constraints, abc.1 * abc.2.1 = abc.2.2

end ConstraintSystem

/-! ## The circuit -/

inductive SynthesisError where
  | assignmentMissing

structure SpendCircuit (F : Type) where
  noteValue : Option F
  secretKey : Option F
  publicNullifier : Option F

namespace SpendCircuit

variable {F : Type}

def assigned (value : Option F) : Except SynthesisError F :=
  match value with
  | some value => .ok value
  | none => .error .assignmentMissing

/-- `SpendCircuit::synthesize` on a state of arity 1. -/
def synthesize (circuit : SpendCircuit F) (cs : ConstraintSystem F) (z : Vector F 1) :
    Except SynthesisError (ConstraintSystem F × Vector F 1) := do
  let z_i := z.head
  let noteValue ← assigned circuit.noteValue
  let cs := cs.alloc noteValue
  let secretKey ← assigned circuit.secretKey
  let cs := cs.alloc secretKey
  -- allocated as one more witness variable, not as an input
  let publicNullifier ← assigned circuit.publicNullifier
  let cs := cs.alloc publicNullifier
  let cs := cs.enforce secretKey noteValue publicNullifier
  return (cs, #v[z_i])

end SpendCircuit

structure SpendWitness (F : Type) where
  noteValue : F
  secretKey : F
  publicNullifier : F
  deriving DecidableEq

def SpendWitness.circuit {F : Type} (w : SpendWitness F) : SpendCircuit F where
  noteValue := some w.noteValue
  secretKey := some w.secretKey
  publicNullifier := some w.publicNullifier

/-- The witnesses satisfy one step of the circuit after the other, from `z`. -/
def SatisfiesSteps {F : Type} [Mul F] : Vector F 1 → List (SpendWitness F) → Prop
  | _, [] => True
  | z, w :: ws => ∃ cs z', w.circuit.synthesize {} z = .ok (cs, z') ∧ cs.Satisfied ∧
      SatisfiesSteps z' ws

/-! ## Proofs -/

class Nova where
  F : Type
  [field : Field F]
  RecursiveSNARK : Type
  /-- `bincode::deserialize` -/
  deserialize : Bytes → Option RecursiveSNARK
  /-- `recursive_snark.verify(pp, num_steps, z0).is_ok()` -/
  verify : RecursiveSNARK → Nat → Vector F 1 → Bool

attribute [reducible, instance] Nova.field

inductive ZkError where
  | verificationFailed

def verifySpendProof [Nova] (proofBytes : Bytes) (numSteps : Nat) : Except ZkError Bool :=
  match Nova.deserialize proofBytes with
  | none => .error .verificationFailed
  | some recursiveSnark => .ok (Nova.verify recursiveSnark numSteps #v[0])

/-- Soundness and completeness: `verify` accepts exactly the encodings of
satisfying witnesses of `n` steps from `z0`, and an encoding determines them. -/
structure Nova.Exact [Nova] (encode : List (SpendWitness Nova.F) → Bytes) : Prop where
  accepts_iff : ∀ bytes n z0, (∃ p, Nova.deserialize bytes = some p ∧ Nova.verify p n z0) ↔
    ∃ ws, ws.length = n ∧ SatisfiesSteps z0 ws ∧ bytes = encode ws
  encode_injective : ∀ ws ws', encode ws = encode ws' → ws = ws'

end NoirNet
