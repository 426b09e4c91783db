import Hyperslab.Proofs.Courses
import Hyperslab.Session

/-!
# Refused mutations

A write to a dataset, or a new shape for it, may be refused. Then no element of any buffer has
changed, and neither has any named dataset: what is refused is refused before the first element is
written. The one trace is that a buffer may have counted an attempt.

Two mutations look as if they could be refused on their way. Scattered items are written one by one,
and each of these writes may itself be refused; and new values for an axis take the place of the old
ones before they are looked at. Both are carried out here step by step. No step of the first is
refused once the first one is made, and the second puts back what it took.
-/
namespace Hyperslab

open Dataset List Shape

/-! ## Sessions -/

namespace Handle

variable {h : Handle} {t : Shape} {store store' : Store} {e : Error}

theorem store_eq_of_reshape_error (hrun : (h.reshape t).run store = (.error e, store')) :
    store' = store := by
  simp only [reshape, run_bind] at hrun
  cases hview : h.reshapeView? t with
  | error e' =>
    rw [hview] at hrun
    cases hrun
    rfl
  | ok v =>
    rw [hview] at hrun
    cases v with
    | some v => cases hrun
    | none =>
      simp only [run_bind, run_peek, andThen_ok, run_lift] at hrun
      cases hreshape : (store.read h).reshape t with
      | error e' =>
        rw [hreshape] at hrun
        cases hrun
        rfl
      | ok d =>
        rw [hreshape, andThen_ok] at hrun
        cases hrun

theorem store_eq_of_setShape_error (hrun : (h.setShape t).run store = (.error e, store')) :
    store' = store := by
  unfold setShape at hrun
  split at hrun
  · cases hrun
  · rw [run_bind] at hrun
    rcases hreshape : (h.reshape t).run store with ⟨e' | out, store''⟩
    · rw [hreshape] at hrun
      cases hrun
      exact store_eq_of_reshape_error hreshape
    · rw [hreshape] at hrun
      cases hrun

end Handle

namespace Session

variable {s s' s'' : Session} {name : String}

/-- What changes a dataset: a write, or another shape. -/
inductive Mutation where
  | write (op : WriteOp)
  | setShape (s : Shape)

/-- Changes the dataset of a name. -/
def Mutation.perform (name : String) : Mutation → SessionM Handle
  | write op => do keepWritten name (← op.run (← dataset name))
  | setShape s => do
      let h ← (← dataset name).setShape s
      setItem name (.dataset h)
      return h

/-- The sessions differ in no more than how many writes their buffers have counted. -/
structure Unchanged (s s' : Session) : Prop where
  items_eq : s'.items = s.items
  depot_eq : s'.depot = s.depot
  board_eq : s'.board = s.board
  size_eq : s'.store.buffers.size = s.store.buffers.size
  elements_eq : ∀ id, (s'.store.buffer id).elements = (s.store.buffer id).elements

theorem Unchanged.refl (s : Session) : s.Unchanged s := ⟨rfl, rfl, rfl, rfl, fun _ => rfl⟩

theorem unchanged_touched (s : Session) (id : BufferId) :
    s.Unchanged { s with store := s.store.setBuffer id (s.store.buffer id).touched } := by
  refine ⟨rfl, rfl, rfl, Array.size_setIfInBounds, ?_⟩
  intro i
  rw [Store.buffer_setBuffer]
  split
  · next h =>
    rw [h.1]
    rfl
  · rfl

theorem run_onStore {α : Type} (x : StoreM α) (s : Session) :
    (liftM x : SessionM α).run s =
      ((x.run s.store).1.mapError .refused, { s with store := (x.run s.store).2 }) := by
  change (onStore x).run s = _
  unfold onStore
  rcases h : x.run s.store with ⟨e | a, store⟩
  · simp only [run_bind, run_get, andThen_ok, h]
    rfl
  · simp only [run_bind, run_get, andThen_ok, h]
    rfl

theorem run_dataset (name : String) (s : Session) : ∃ out, (dataset name).run s = (out, s) := by
  unfold dataset item
  simp only [run_bind, run_get, andThen_ok]
  cases s.items.lookup name with
  | none => exact ⟨_, rfl⟩
  | some i => cases i <;> exact ⟨_, rfl⟩

/-- A mutation that is refused, and not stopped at a fault, changes nothing. -/
theorem Mutation.unchanged_of_error {mutation : Mutation} {e : Failure}
    (h : (mutation.perform name).run s = (.error e, s')) (he : ∀ f, e ≠ .refused (.fault f)) :
    s.Unchanged s' := by
  obtain ⟨out, hout⟩ := run_dataset name s
  cases mutation with
  | write op =>
    rw [perform, run_bind, hout] at h
    cases out with
    | error e' =>
      cases h
      exact .refl s
    | ok d =>
      rw [andThen_ok, run_bind, run_onStore] at h
      have hwrote := op.wrote d s.store
      generalize (op.run d).run s.store = outcome at h hwrote
      cases hwrote with
      | refused e' =>
        cases h
        exact .refl s
      | counted e' =>
        cases h
        exact unchanged_touched s d.buffer
      | written stop =>
        -- The write was made, so only a fault can have ended it.
        cases stop with
        | none => cases h
        | some f =>
          cases h
          exact absurd rfl (he f)
  | setShape t =>
    rw [perform, run_bind, hout] at h
    cases out with
    | error e' =>
      cases h
      exact .refl s
    | ok d =>
      rw [andThen_ok, run_bind, run_onStore] at h
      rcases hshape : (d.setShape t).run s.store with ⟨e' | d', store⟩
      · rw [hshape] at h
        cases h
        rw [d.store_eq_of_setShape_error hshape]
        exact .refl s
      · rw [hshape] at h
        cases h

end Session

/-! ## Scattered items -/

namespace Dataset

/-- An item of the right length is written at every position of the shape, or the write is
stopped. -/
theorem exists_writeItem {d : Block} {pos : Position} {item : List Scalar}
    (hpos : d.shape.contains pos) (hitem : item.length = d.itemSize) :
    ∃ w, d.writeItem pos item = .ok w ∧ w.dataset.toFrame = d.toFrame := by
  have hindex : d.toFrame.indexOf pos = .ok (d.geometry.indexOf pos) := by
    simp only [Frame.indexOf, checkPosition, if_pos hpos]
    rfl
  refine ⟨d.writeAt (d.geometry.indexOf pos) item, ?_, ?_⟩
  · simp only [writeItem, hitem, ne_eq, not_true, hindex]
    rfl
  · unfold writeAt
    split <;> rfl

end Dataset

namespace Store

variable {store : Store} {id : BufferId}

theorem setBuffer_self (h : id < store.buffers.size) :
    store.setBuffer id (store.buffer id) = store := by
  have hself : store.buffers.setIfInBounds id store.buffers[id] = store.buffers := by
    rw [Array.setIfInBounds, dif_pos h, Array.set_getElem_self]
  simp only [setBuffer, buffer, Array.getD_eq_getD_getElem?, Array.getElem?_eq_getElem h,
    Option.getD_some, hself]

theorem setBuffer_setBuffer (b b' : Buffer) :
    (store.setBuffer id b).setBuffer id b' = store.setBuffer id b' := by
  simp only [setBuffer, Array.setIfInBounds_setIfInBounds]

end Store

namespace Handle

variable {h : Handle} {store : Store}

/-- Writes items at row-major ranks, from item number `k` on. Each of them is a write to the store,
which stays whatever comes of the next one. -/
def putItems (items : Array (List Scalar)) : Nat → List Nat → Handle → StoreM (Written BufferId)
  | _, [], h => return ⟨h, none⟩
  | k, i :: rest, h => do
      let w ← h.setItem (Shape.unravel i h.shape) (items.getD (k % items.size) [])
      if w.stop.isSome then return w else putItems items (k + 1) rest w.dataset

/-- The items of a dataset, each followed by zeros up to the item size of `h`. -/
def itemsFor (h : Handle) (values : Block) : Array (List Scalar) :=
  (values.itemList.map fun item =>
    item ++ List.replicate (h.itemSize - item.length) h.kind.zero).toArray

theorem length_of_mem_itemsFor {values : Block} {item : List Scalar}
    (hsize : values.itemSize = h.itemSize ∨ values.itemSize = 1) (hpos : 0 < h.itemSize)
    (hitem : item ∈ h.itemsFor values) : item.length = h.itemSize := by
  simp only [itemsFor, mem_toArray, itemList_eq, map_map, mem_map] at hitem
  obtain ⟨p, -, rfl⟩ := hitem
  simp only [Function.comp_apply, length_append, length_replicate, length_item]
  omega

theorem size_itemsFor (h : Handle) (values : Block) : (h.itemsFor values).size = values.size := by
  simp only [itemsFor, size_toArray, length_map, itemList_eq, length_positions]
  rfl

/-- Sets the items at row-major ranks one by one. -/
def putEach (h : Handle) (ranks : List Nat) (values : Handle) : StoreM (Written BufferId) := do
  let values ← values.peek
  match ranks.find? (h.size ≤ ·) with
  | some bad => throw (.outOfBounds [bad] [h.size])
  | none =>
      if values.itemSize ≠ h.itemSize ∧ values.itemSize ≠ 1 then
        throw (.incompatibleItemSize h.itemSize values.itemSize)
      else if values.size = 0 then
        if ranks.isEmpty then return ⟨h, none⟩ else throw (.invalidSlice .noValues)
      else
        values.checkRead
        putItems (h.itemsFor values) 0 ranks h

theorem read_setBuffer {d : Block} (hheld : h.buffer < store.buffers.size)
    (hframe : d.toFrame = h.toFrame) :
    (store.setBuffer h.buffer d.buffer).read { h with metadata := d.metadata } = d := by
  have hbuffer : (store.setBuffer h.buffer d.buffer).buffer h.buffer = d.buffer := by
    rw [Store.buffer_setBuffer, if_pos ⟨rfl, hheld⟩]
  simp only [Store.read, hbuffer, ← hframe]

/-- Items of the right length at ranks in bounds are all written, one by one as at once. -/
theorem run_putItems {items : Array (List Scalar)} {k : Nat} {ranks : List Nat}
    (hheld : h.buffer < store.buffers.size) (hitems : ∀ item ∈ items, item.length = h.itemSize)
    (hsome : 0 < items.size) (hranks : ∀ i ∈ ranks, i < h.size) :
    ∃ w, scatter items k ranks (store.read h) = .ok w ∧
      (putItems items k ranks h).run store =
        (.ok ⟨{ h with metadata := w.dataset.metadata }, w.stop⟩,
          store.setBuffer h.buffer w.dataset.buffer) := by
  induction ranks generalizing k h store with
  | nil =>
    refine ⟨⟨store.read h, none⟩, rfl, ?_⟩
    change (Except.ok _, store) = (_, store.setBuffer h.buffer (store.buffer h.buffer))
    rw [Store.setBuffer_self hheld]
    rfl
  | cons i rest ih =>
    rw [forall_mem_cons] at hranks
    have hpos : (store.read h).shape.contains (unravel i h.shape) :=
      contains_unravel (Nat.zero_lt_of_lt hranks.1) i
    have hitem : (items.getD (k % items.size) []).length = (store.read h).itemSize := by
      have hlt : k % items.size < items.size := Nat.mod_lt k hsome
      rw [Array.getD_eq_getD_getElem?, Array.getElem?_eq_getElem hlt]
      exact hitems _ (Array.getElem_mem hlt)
    obtain ⟨first, hfirst, hframe⟩ := exists_writeItem hpos hitem
    have hset : (h.setItem (unravel i h.shape) (items.getD (k % items.size) [])).run store =
        (.ok ⟨{ h with metadata := first.dataset.metadata }, first.stop⟩,
          store.setBuffer h.buffer first.dataset.buffer) := by
      rw [setItem, run_write, hfirst]
    have hscatter : scatter items k (i :: rest) (store.read h) =
        if first.stop.isSome then .ok first else
          scatter items (k + 1) rest first.dataset := by
      change (writeItem (store.read h) (unravel i h.shape) _ >>= _) = _
      rw [hfirst]
      rfl
    rw [hscatter, putItems, run_bind, hset, andThen_ok]
    by_cases hstop : first.stop.isSome
    · simp only [if_pos hstop]
      exact ⟨first, rfl, rfl⟩
    · simp only [if_neg hstop]
      have hheld' : h.buffer < (store.setBuffer h.buffer first.dataset.buffer).buffers.size := by
        rw [Store.setBuffer, Array.size_setIfInBounds]
        exact hheld
      obtain ⟨w, hw, hrun⟩ := @ih { h with metadata := first.dataset.metadata }
        (store.setBuffer h.buffer first.dataset.buffer) (k + 1) hheld' hitems hranks.2
      rw [read_setBuffer hheld hframe] at hw
      rw [Store.setBuffer_setBuffer] at hrun
      exact ⟨w, hw, hrun⟩

/-- **Scattering items one by one is scattering them at once**: none of the writes is refused after
the first one is made. -/
theorem run_putEach (hheld : h.Held store) (ranks : List Nat) (values : Handle) :
    (h.putEach ranks values).run store = (h.put ranks values).run store := by
  have hput : (h.put ranks values).run store =
      (h.write (·.writePut ranks (store.read values))).run store := by
    rw [put, run_bind, run_peek, andThen_ok]
  have hshape : (store.read h).size = h.size := rfl
  have hitem : (store.read h).itemSize = h.itemSize := rfl
  have hkind : (store.read h).kind = h.kind := rfl
  rw [hput, run_write, putEach, run_bind, run_peek, andThen_ok, writePut]
  simp only [hshape, hitem, hkind]
  cases hfind : ranks.find? (h.size ≤ ·) with
  | some bad => rfl
  | none =>
    have hranks : ∀ i ∈ ranks, i < h.size := by
      simpa using hfind
    by_cases hsize : (store.read values).itemSize ≠ h.itemSize ∧ (store.read values).itemSize ≠ 1
    · rw [if_pos hsize, if_pos hsize]
      rfl
    rw [if_neg hsize, if_neg hsize]
    by_cases hempty : (store.read values).size = 0
    · rw [if_pos hempty, if_pos hempty]
      by_cases hnone : ranks.isEmpty
      · rw [if_pos hnone, if_pos hnone]
        change (Except.ok _, store) = (_, store.setBuffer h.buffer (store.buffer h.buffer))
        rw [Store.setBuffer_self hheld.buffer_lt]
        rfl
      · rw [if_neg hnone, if_neg hnone]
        rfl
    rw [if_neg hempty, if_neg hempty, run_bind, run_lift]
    cases (store.read values).checkRead with
    | error e => rfl
    | ok u =>
      rw [andThen_ok]
      have hitems : ∀ item ∈ h.itemsFor (store.read values), item.length = h.itemSize := by
        intro item hitem
        exact length_of_mem_itemsFor (by omega) hheld.sound.inside.itemSize_pos hitem
      have hsome : 0 < (h.itemsFor (store.read values)).size := by
        rw [size_itemsFor]
        exact Nat.pos_of_ne_zero hempty
      obtain ⟨w, hw, hrun⟩ := run_putItems hheld.buffer_lt hitems hsome hranks
      have hscatter : scatter ((store.read values).itemList.map fun item =>
          item ++ replicate (h.itemSize - item.length) h.kind.zero).toArray 0 ranks
          (store.read h) = .ok w := hw
      rw [hrun, hscatter]
      rfl

end Handle

/-! ## Values of an axis -/

namespace AxisValues

variable {a a' : AxisValues} {axis : Int} {values : Field} {e : Error}

/-- Exchanges the fields of one axis in place: the old ones are taken out before the new values are
looked at, and put back if these are refused. A fault leaves them out. -/
def exchange (axis : Int) (values : Field) : ExceptT Error (StateM AxisValues) Unit := do
  let a ← get
  let i ← Shape.normalizeAxis axis a.shape.length
  let old := a.axes.getD i []
  set { a with axes := a.axes.set i [] }
  match { a with axes := a.axes.set i [] }.add axis values with
  | .ok a' => set a'
  | .error (.fault f) => throw (.fault f)
  | .error e =>
      modify fun a => { a with axes := a.axes.set i old }
      throw e

theorem run_exchange_of_ok (h : a.replace axis values = .ok a') :
    (exchange axis values).run a = (.ok (), a') := by
  simp only [replace, bind_eq_ok] at h
  obtain ⟨i, hi, h⟩ := h
  simp only [exchange, run_bind, run_get, andThen_ok, run_lift, hi, run_set, h]

/-- New values that are refused leave those that were there. -/
theorem run_exchange_of_error (h : a.replace axis values = .error e) (he : ∀ f, e ≠ .fault f) :
    (exchange axis values).run a = (.error e, a) := by
  cases hi : normalizeAxis axis a.shape.length with
  | error e' =>
    simp only [replace, hi] at h
    cases h
    simp only [exchange, run_bind, run_get, andThen_ok, run_lift, hi, andThen_error]
  | ok i =>
    have hadd : { a with axes := a.axes.set i [] }.add axis values = .error e := by
      simp only [replace, hi] at h
      exact h
    have hback : (a.axes.set i []).set i (a.axes.getD i []) = a.axes := by
      rw [set_set]
      by_cases hlt : i < a.axes.length
      · rw [getD_eq_getElem?_getD, getElem?_eq_getElem hlt, Option.getD_some, set_getElem_self]
      · rw [set_eq_of_length_le (Nat.not_lt.mp hlt)]
    simp only [exchange, run_bind, run_get, andThen_ok, run_lift, hi, hadd]
    cases e with
    | fault f => exact absurd rfl (he f)
    | _ =>
      change (Except.error _,
        ({ a with axes := (a.axes.set i []).set i (a.axes.getD i []) } : AxisValues)) = _
      rw [hback]

end AxisValues

/-! ## The result -/

namespace Session

/-- **A refused mutation changes nothing.** After any write to a dataset of a session, or new shape
for it, that fails and is not stopped at a fault, all buffers and named values are what they were.
Items scattered one by one come to the same as those scattered at once. New values for an axis are
exchanged for the old ones only if they are accepted. -/
theorem refused_mutation_changes_nothing :
    (∀ (s s' : Session) (name : String) (mutation : Mutation) (e : Failure),
      (mutation.perform name).run s = (.error e, s') → (∀ f, e ≠ .refused (.fault f)) →
        s.Unchanged s') ∧
    (∀ (h : Handle) (store : Store), h.Held store → ∀ (ranks : List Nat) (values : Handle),
      (h.putEach ranks values).run store = (h.put ranks values).run store) ∧
    ∀ (a : AxisValues) (axis : Int) (values : Field),
      (∀ a', a.replace axis values = .ok a' →
        (AxisValues.exchange axis values).run a = (.ok (), a')) ∧
      ∀ e, a.replace axis values = .error e → (∀ f, e ≠ .fault f) →
        (AxisValues.exchange axis values).run a = (.error e, a) := by
  refine ⟨?_, ?_, ?_⟩
  · intro s s' name mutation e h he
    exact Mutation.unchanged_of_error h he
  · intro h store hheld ranks values
    exact Handle.run_putEach hheld ranks values
  · intro a axis values
    constructor
    · intro a' h
      exact AxisValues.run_exchange_of_ok h
    · intro e h he
      exact AxisValues.run_exchange_of_error h he

def fourNumbers : Handle := ⟨Frame.packed (.int true .w32) "numbers" [4] 1, 0, .empty⟩

/-- Four divisors, of which the third is zero. -/
def divisors : Handle := ⟨Frame.packed (.int true .w32) "divisors" [4] 1, 1, .empty⟩

/-- A session of numbers and divisors. -/
def quotients : Session where
  store := ⟨#[.of #[.int 8, .int 6, .int 4, .int 2], .of #[.int 2, .int 2, .int 0, .int 2]]⟩
  depot := .empty
  board := .empty
  items := [("numbers", .dataset fourNumbers), ("divisors", .dataset divisors)]

/-- The division by zero comes after two quotients, the rank out of bounds after one in bounds, and
the three values are too many for the axis. -/
theorem refused_mutation_changes_nothing_quotients :
    (∃ s', ((Mutation.write (.applyInPlace .divide divisors)).perform "numbers").run quotients =
      (.error (.refused .divideByZero), s') ∧ quotients.Unchanged s') ∧
    fourNumbers.Held quotients.store ∧
    (fourNumbers.putEach [1, 7] divisors).run quotients.store =
      (.error (.outOfBounds [7] [4]), quotients.store) ∧
    let two : Field := (Dataset.ofList .double [2] 1 [.double 0.5, .double 1.5]).field
    let three : Field := (Dataset.ofList .double [3] 1 (List.replicate 3 (.double 2))).field
    let a : AxisValues := ⟨[4, 2], [[], [two]]⟩
    (AxisValues.exchange 1 three).run a = (.error (.incompatibleShapes [3] [2]), a) := by
  obtain ⟨hmutation, hput, haxis⟩ := refused_mutation_changes_nothing
  have hheld : fourNumbers.Held quotients.store := by
    refine ⟨by decide, ?_⟩
    exact @Frame.sound_packed (.int true .w32) "numbers" [4] 1 (by decide) (by decide)
  obtain ⟨s', h⟩ : ∃ s',
      ((Mutation.write (.applyInPlace .divide divisors)).perform "numbers").run quotients =
        (.error (.refused .divideByZero), s') := ⟨_, rfl⟩
  refine ⟨⟨s', h, hmutation _ _ _ _ _ h fun f => nofun⟩, hheld, ?_, ?_⟩
  · rw [hput _ _ hheld]
    rfl
  · exact (haxis _ _ _).2 _ rfl fun f => nofun

end Session

end Hyperslab
