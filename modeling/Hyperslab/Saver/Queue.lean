import Hyperslab.Saver

/-!
# Queued writes

A queue in front of any saver takes writes without waiting for them. They are carried out in the
order in which they were taken. The first failure is kept and reported by the next flush; later
writes are still tried.
-/
namespace Hyperslab

/-- Writes that were taken and not carried out yet, and the first failure since the last flush. -/
structure Queue where
  pending : List (Region × Block)
  failure : Option IoFailure

namespace Queue

variable {σ : Type}

def empty : Queue := ⟨[], none⟩

/-- Carries out the oldest pending write. One that is stopped at a fault counts as a failure here,
where it would end a worker. -/
def work (inner : Saver σ) : Queue × σ → Queue × σ
  | (⟨[], failure⟩, s) => (⟨[], failure⟩, s)
  | (⟨(r, d) :: rest, failure⟩, s) =>
      match inner.write r d s with
      | (.ok (), s) => (⟨rest, failure⟩, s)
      | (.error e, s) => (⟨rest, failure <|> some e⟩, s)

/-- Carries out `n` pending writes. -/
def workMany (inner : Saver σ) : Nat → Queue × σ → Queue × σ
  | 0, qs => qs
  | n + 1, qs => workMany inner n (work inner qs)

/-- Carries out everything that is pending. -/
def drain (inner : Saver σ) (qs : Queue × σ) : Queue × σ :=
  workMany inner qs.1.pending.length qs

/-- Takes a write, unless the storage refuses writes. -/
def submit (inner : Saver σ) (r : Region) (d : Block) : Action (Queue × σ) Unit := fun (q, s) =>
  if inner.isWriteable s then (.ok (), { q with pending := q.pending ++ [(r, d)] }, s)
  else (.error .notWriteable, q, s)

/-- Carries out what is pending and reports the first failure, which is then forgotten. -/
def flush (inner : Saver σ) : Action (Queue × σ) Unit := fun qs =>
  let (q, s) := drain inner qs
  match q.failure with
  | none => (.ok (), q, s)
  | some e => (.error e, { q with failure := none }, s)

/-- Flushes and then writes at once; a failure of the flush stands in for the write. -/
def write (inner : Saver σ) (r : Region) (d : Block) : Action (Queue × σ) Unit := fun qs =>
  match flush inner qs with
  | (.error e, qs) => (.error e, qs)
  | (.ok (), q, s) =>
      let (out, s) := inner.write r d s
      (out, q, s)

/-- The saver that puts a queue in front of another one. -/
def saver (inner : Saver σ) : Saver (Queue × σ) where
  isReadable qs := inner.isReadable qs.2
  read r := fun (q, s) =>
    let (out, s) := inner.read r s
    (out, q, s)
  isWriteable qs := inner.isWriteable qs.2
  write := write inner
  setFill v := fun (q, s) => (q, inner.setFill v s)
  background := some { submit := submit inner, flush := flush inner }

end Queue

end Hyperslab
