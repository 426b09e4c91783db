import Hyperslab.Dataset.Access

/-!
# Savers

A loader reads regions of stored data and a saver also writes them. Both act on a state `σ` that
holds the stored data and whatever else they keep; nothing is known of their behaviour beyond the
types. Regions are given in the storage's own coordinates, and a write may carry a region whose
source is larger than what is stored.
-/
namespace Hyperslab

/-- An action on storage: its outcome, and the state afterwards. -/
abbrev Action (σ α : Type) := σ → Except IoFailure α × σ

structure Loader (σ : Type) where
  isReadable : σ → Bool
  read : Region → Action σ Block

/-- Takes writes without carrying them out at once; failures surface at the next flush. -/
structure Background (σ : Type) where
  submit : Region → Block → Action σ Unit
  flush : Action σ Unit

/-- Reads and writes regions of stored data. -/
structure Saver (σ : Type) extends Loader σ where
  isWriteable : σ → Bool
  write : Region → Block → Action σ Unit
  /-- Sets the value of elements that come into being without having been written. -/
  setFill : Scalar → σ → σ
  /-- The asynchronous interface, if there is one. -/
  background : Option (Background σ)

/-! ## Savers inside a larger state -/

namespace Action

variable {σ τ α : Type}

/-- An action on a part of a state. -/
def zoom (get : σ → τ) (set : τ → σ → σ) (a : Action τ α) : Action σ α := fun s =>
  let (out, t) := a (get s)
  (out, set t s)

end Action

namespace Saver

variable {σ τ : Type}

/-- A saver of a part of a state. -/
def zoom (get : σ → τ) (set : τ → σ → σ) (saver : Saver τ) : Saver σ where
  isReadable s := saver.isReadable (get s)
  read r := Action.zoom get set (saver.read r)
  isWriteable s := saver.isWriteable (get s)
  write r d := Action.zoom get set (saver.write r d)
  setFill v s := set (saver.setFill v (get s)) s
  background := saver.background.map fun b =>
    { submit := fun r d => Action.zoom get set (b.submit r d)
      flush := Action.zoom get set b.flush }

end Saver

end Hyperslab
