import Hyperslab.Proofs.GrowthLimits
import Hyperslab.Proofs.QueueOrder
import Hyperslab.Proofs.RefusedWrites

/-!
# Writes in the background and writes at once

A writeable dataset over a queue hands its writes over and goes on. It has then grown while the
storage has not, and the next region is resolved against a shape that the storage is still to get.
Meanwhile a worker carries out pending writes, at moments of its own choice. If none of them fails,
nobody can tell in the end: the dataset and the storage are what they would be had every write been
made at once. The data of a write is copied when the call is made; where it is a view of the stored
data it depends on what the worker has done by then, and the write at once is one of that data.

What an order asks of the saver is decided before the saver is asked, and in the same way whatever
the saver is. This is said once, as a `Demand`, and both runs are compared demand by demand.
-/
namespace Hyperslab

open List

variable {σ τ : Type}

/-! ## Carrying out writes -/

namespace Saver

variable {inner : Saver σ}

/-- Carries out writes one after the other: their outcomes, and the state afterwards. -/
def carryOut (inner : Saver σ) : List (Region × Block) → σ → List (Except IoFailure Unit) × σ
  | [], s => ([], s)
  | (r, d) :: rest, s =>
      let (out, s) := inner.write r d s
      let (outs, s) := carryOut inner rest s
      (out :: outs, s)

theorem carryOut_cons (r : Region) (d : Block) (rest : List (Region × Block)) (s : σ) :
    inner.carryOut ((r, d) :: rest) s =
      ((inner.write r d s).1 :: (inner.carryOut rest (inner.write r d s).2).1,
        (inner.carryOut rest (inner.write r d s).2).2) := rfl

theorem carryOut_append (l l' : List (Region × Block)) (s : σ) :
    inner.carryOut (l ++ l') s =
      ((inner.carryOut l s).1 ++ (inner.carryOut l' (inner.carryOut l s).2).1,
        (inner.carryOut l' (inner.carryOut l s).2).2) := by
  induction l generalizing s with
  | nil => rfl
  | cons w l ih =>
    rw [cons_append, carryOut_cons, ih]
    rfl

/-- What writes leave of a state, one after the other, if each of them does. -/
theorem carryOut_induction {P : σ → Prop} (hwrite : ∀ r d s, P s → P (inner.write r d s).2)
    (l : List (Region × Block)) {s : σ} (hs : P s) : P (inner.carryOut l s).2 := by
  induction l generalizing s with
  | nil => exact hs
  | cons w l ih => exact ih (hwrite w.1 w.2 s hs)

end Saver

namespace Queue

variable {inner : Saver σ} {q : Queue} {s : σ}

def firstFailed (outs : List (Except IoFailure Unit)) : Option IoFailure :=
  outs.findSome? fun
    | .ok () => none
    | .error e => some e

theorem firstFailed_eq_none {outs : List (Except IoFailure Unit)} :
    firstFailed outs = none ↔ ∀ out ∈ outs, out = .ok () := by
  rw [firstFailed, findSome?_eq_none_iff]
  refine forall₂_congr fun out _ => ?_
  rcases out with e | ⟨⟨⟩⟩ <;> simp

/-- The worker carries out the oldest writes, and the first failure is kept. -/
theorem workMany_eq (inner : Saver σ) (n : Nat) (q : Queue) (s : σ) :
    workMany inner n (q, s) = (⟨q.pending.drop n,
          q.failure.or (firstFailed (inner.carryOut (q.pending.take n) s).1)⟩,
        (inner.carryOut (q.pending.take n) s).2) := by
  induction n generalizing q s with
  | zero => simp [workMany, Saver.carryOut, firstFailed]
  | succ n ih =>
    obtain ⟨_ | ⟨⟨r, d⟩, rest⟩, failure⟩ := q
    · rw [workMany, work, ih]
      simp
    rw [workMany]
    rcases hwrite : inner.write r d s with ⟨e | ⟨⟨⟩⟩, s'⟩
    · have hwork : work inner (⟨(r, d) :: rest, failure⟩, s) =
          (⟨rest, failure.or (some e)⟩, s') := by
        simp only [work, hwrite]
        cases failure <;> rfl
      rw [hwork, ih, take_succ_cons, Saver.carryOut_cons, hwrite, Option.or_assoc]
      rfl
    · have hwork : work inner (⟨(r, d) :: rest, failure⟩, s) = (⟨rest, failure⟩, s') := by
        simp only [work, hwrite]
      rw [hwork, ih, take_succ_cons, Saver.carryOut_cons, hwrite]
      rfl

theorem flush_eq (inner : Saver σ) (q : Queue) (s : σ) :
    flush inner (q, s) =
      (report (q.failure.or (firstFailed (inner.carryOut q.pending s).1)), .empty,
        (inner.carryOut q.pending s).2) := by
  have hdrain := workMany_eq inner q.pending.length q s
  rw [drop_length, take_length] at hdrain
  simp only [flush, drain, hdrain]
  cases q.failure.or (firstFailed (inner.carryOut q.pending s).1) <;> rfl

theorem write_eq (inner : Saver σ) (r : Region) (d : Block) (q : Queue) (s : σ) :
    write inner r d (q, s) = match q.failure.or (firstFailed (inner.carryOut q.pending s).1) with
      | some e => (.error e, .empty, (inner.carryOut q.pending s).2)
      | none =>
          ((inner.write r d (inner.carryOut q.pending s).2).1, .empty,
            (inner.write r d (inner.carryOut q.pending s).2).2) := by
  simp only [write, flush_eq]
  cases q.failure.or (firstFailed (inner.carryOut q.pending s).1) <;> rfl

end Queue

namespace Writeable

variable {w : Writeable τ}

/-! ## Orders and demands -/

/-- The same dataset over another saver, which also serves reads. -/
def backedBy (w : Writeable τ) (saver : Saver σ) : Writeable σ :=
  { w with
    lazy := { w.lazy with loader := some saver.toLoader }
    saver := some saver }

def inShape (w : Writeable τ) (s : Shape) : Writeable τ :=
  { w with lazy := { w.lazy with shape := s } }

/-- What is asked of a dataset: a write, how writes are made from now on, or to wait for those that
were handed over. -/
inductive Order where
  | write (call : Write)
  | setAsync (isAsync : Bool)
  | flush

def Order.request : Order → Request σ
  | write call => .write call
  | setAsync isAsync => .setAsync isAsync
  | flush => .flush

/-- What an order asks of the saver. Where it asks nothing, the dataset is left as `w`. -/
inductive Demand (τ : Type) where
  | nothing (w : Writeable τ)
  | store (isAsync : Bool) (r : Region) (dense : Block)
  | flush

/-- What a write asks of a saver, unless it is refused before. -/
def writeDemand (w : Writeable τ) (isOpen isAsync : Bool) (r : Region) (data : Block) :
    Except Error (Demand τ) := do
  w.checkRegion r
  if ¬ isOpen then .error (.notWritable (.readOnly w.name))
  else if (← r.shape.sizeWord) = 0 then return .nothing w
  else return .store isAsync r (← w.packed r data)

/-- What an order asks of a saver that takes writes or does not, unless it is refused before. -/
def Order.demand (w : Writeable τ) (isOpen : Bool) : Order → Except Error (Demand τ)
  | write call => do w.writeDemand isOpen (call.isAsync w) (← call.target w) call.data
  | setAsync isAsync => .ok (.nothing { w with writesAsync := isAsync })
  | flush => .ok .flush

/-- The saver does what is asked of it. -/
def Demand.run (w : Writeable τ) (saver : Saver σ) :
    Demand τ → Task σ (Writeable σ × List (String × Event))
  | nothing w' => return (w'.backedBy saver, [])
  | store isAsync r dense => do
      Task.ofAction ("writing " ++ w.name ++ r.text) (Writeable.store saver isAsync r dense)
      return ((w.inShape r.source).backedBy saver, w.listeners.fire ⟨w.name, r.source⟩)
  | flush => do
      (w.backedBy saver).flush
      return (w.backedBy saver, [])

theorem run_write_backedBy (saver : Saver σ) (isAsync : Bool) (r : Region) (data : Block) (s : σ) :
    ((w.backedBy saver).write isAsync r data).run s =
      andThen (w.writeDemand (saver.isWriteable s) isAsync r data, s) (Demand.run w saver) := by
  have hcheck : (w.backedBy saver).checkRegion r = w.checkRegion r := rfl
  have hpacked : (w.backedBy saver).packed r data = w.packed r data := rfl
  simp only [write, writeDemand, hcheck]
  cases w.checkRegion r with
  | error e => rfl
  | ok u =>
    cases hopen : saver.isWriteable s with
    | false =>
      have hclosed : (w.backedBy saver).openSaver s = .error (.notWritable (.readOnly w.name)) := by
        simp only [openSaver, backedBy, hopen]
        rfl
      simp only [andThen_ok, run_bind, run_get, run_lift, hclosed]
      rfl
    | true =>
      have hsaver : (w.backedBy saver).openSaver s = .ok saver := by
        simp only [openSaver, backedBy, hopen, if_true]
      simp only [andThen_ok, run_bind, run_get, run_lift, hsaver]
      cases r.shape.sizeWord with
      | error e => rfl
      | ok size =>
        by_cases hsize : size = 0
        · simp only [andThen_ok, ok_bind, if_pos hsize]
          rfl
        · simp only [andThen_ok, ok_bind, if_neg hsize, hpacked]
          cases w.packed r data with
          | error e => rfl
          | ok dense => rfl

/-- **What an order does is what it asks of the saver.** -/
theorem Order.run_backedBy (order : Order) (saver : Saver σ) (s : σ) :
    (order.request.run (w.backedBy saver)).run s =
      andThen (order.demand w (saver.isWriteable s), s) (Demand.run w saver) := by
  cases order with
  | setAsync isAsync => rfl
  | flush => rfl
  | write call =>
    have htarget : call.target (w.backedBy saver) = call.target w := by cases call <;> rfl
    change (call.run (w.backedBy saver)).run s = _
    rw [Write.run_eq, htarget, demand]
    cases call.target w with
    | error e => rfl
    | ok r => exact run_write_backedBy saver _ r _ s

namespace Order

variable {order : Order} {isOpen isAsync : Bool} {r : Region} {dense : Block} {w' : Writeable τ}

theorem demand_eq_nothing (h : order.demand w isOpen = .ok (.nothing w')) :
    w'.lazy = w.lazy ∧ w'.maxShape = w.maxShape := by
  cases order with
  | flush => cases h
  | setAsync isAsync =>
    cases h
    exact ⟨rfl, rfl⟩
  | write call =>
    simp only [demand, writeDemand, bind_eq_ok] at h
    obtain ⟨target, -, -, -, h⟩ := h
    split at h
    · cases h
    · rw [bind_eq_ok] at h
      obtain ⟨size, -, h⟩ := h
      split at h
      · cases h
        exact ⟨rfl, rfl⟩
      · simp only [bind_eq_ok] at h
        obtain ⟨_, -, ⟨⟩⟩ := h

/-- A saver is asked to store the data of a write, packed, if it takes writes and the region is one
that the dataset may grow to. -/
theorem demand_eq_store (h : order.demand w isOpen = .ok (.store isAsync r dense)) :
    isOpen ∧ ∃ call, order = .write call ∧ call.target w = .ok r ∧
      w.checkRegion r = .ok () ∧ r.size ≠ 0 ∧ w.packed r call.data = .ok dense := by
  cases order with
  | setAsync b => cases h
  | flush => cases h
  | write call =>
    simp only [demand, writeDemand, bind_eq_ok] at h
    obtain ⟨target, htarget, ⟨⟩, hcheck, h⟩ := h
    split at h
    · cases h
    · next hopen =>
      rw [bind_eq_ok] at h
      obtain ⟨size, hword, h⟩ := h
      split at h
      · cases h
      · next hsize =>
        simp only [bind_eq_ok] at h
        obtain ⟨packed, hpacked, hstore⟩ := h
        cases hstore
        rw [← Shape.size_of_sizeWord hword] at hsize
        exact ⟨not_not.mp hopen, call, rfl, htarget, hcheck, hsize, hpacked⟩

end Order

/-! ## Accounts -/

/-- A dataset and the state of its saver, with the results of all orders so far and the calls to
listeners. -/
structure Account (σ : Type) where
  handle : Writeable σ
  state : σ
  results : List (Except Error Unit)
  calls : List (String × Event)

namespace Account

variable {y : Account σ} {saver : Saver σ}

/-- Enters what came of an order. One that failed leaves the dataset, but may have changed the
storage. -/
def enter (y : Account σ) : Except Error (Writeable σ × List (String × Event)) × σ → Account σ
  | (.ok (w, calls), s) => ⟨w, s, y.results ++ [.ok ()], y.calls ++ calls⟩
  | (.error e, s) => { y with state := s, results := y.results ++ [.error e] }

/-- The account after one more order. -/
def after (y : Account σ) (order : Order) : Account σ :=
  y.enter ((order.request.run y.handle).run y.state)

theorem after_eq (hw : y.handle = w.backedBy saver) (order : Order) :
    y.after order = y.enter
      (andThen (order.demand w (saver.isWriteable y.state), y.state) (Demand.run w saver)) := by
  rw [after, hw, Order.run_backedBy]

end Account

/-! ## Teams -/

/-- Who acts next. -/
inductive Turn where
  | client
  | worker

/-- A client that has orders to give to a dataset over a queue, and a worker that carries out what
was put off. -/
structure Team (σ : Type) where
  /-- What is still to be ordered. It may depend on what is stored at that moment. -/
  orders : List (σ → Order)
  given : List Order
  account : Account (Queue × σ)
  /-- The outcomes of the writes that were carried out in the background. -/
  attempts : List (Except IoFailure Unit)

namespace Team

variable {inner : Saver σ} {x : Team σ} {y : Account σ}

/-- The writes that are pending. -/
def pending (x : Team σ) : List (Region × Block) := x.account.state.1.pending

def storage (x : Team σ) : σ := x.account.state.2

/-- The team with another account. The pending writes that the queue has no more were carried
out. -/
def moved (inner : Saver σ) (x : Team σ) (account : Account (Queue × σ)) : Team σ :=
  let done := x.pending.take (x.pending.length - account.state.1.pending.length)
  { x with account := account, attempts := x.attempts ++ (inner.carryOut done x.storage).1 }

/-- One turn: the client gives its next order, or the worker carries out the oldest pending
write. -/
def step (inner : Saver σ) (x : Team σ) : Turn → Team σ
  | .worker => x.moved inner { x.account with state := Queue.work inner x.account.state }
  | .client =>
      match x.orders with
      | [] => x
      | next :: orders =>
          let order := next x.storage
          { x.moved inner (x.account.after order) with
            orders := orders
            given := x.given ++ [order] }

/-- All turns of a schedule. -/
def run (inner : Saver σ) (x : Team σ) (schedule : List Turn) : Team σ :=
  schedule.foldl (step inner) x

def start (w : Writeable τ) (inner : Saver σ) (s : σ) (orders : List (σ → Order)) : Team σ :=
  ⟨orders, [], ⟨w.backedBy (Queue.saver inner), (.empty, s), [], []⟩, []⟩

/-- The outcomes of all writes that were handed over, once those that are pending are carried
out. -/
def outlook (inner : Saver σ) (x : Team σ) : List (Except IoFailure Unit) :=
  x.attempts ++ (inner.carryOut x.pending x.storage).1

/-! ## What one turn does -/

/-- All that an order can do to the dataset `w` over a queue `q` with storage `s` behind it: the
dataset, the queue and the storage afterwards, and the result. -/
inductive Serves (inner : Saver σ) (w : Writeable τ) (q : Queue) (s : σ) (order : Order) :
    Writeable τ → Queue → σ → Except Error Unit → Prop where
  | kept {w' : Writeable τ} {out : Except Error Unit} : w'.lazy = w.lazy → w'.maxShape = w.maxShape →
      Serves inner w q s order w' q s out
  | flushed {out : Except Error Unit} :
      Serves inner w q s order w .empty (inner.carryOut q.pending s).2 out
  | submitted {r : Region} {dense : Block} :
      order.demand w (inner.isWriteable s) = .ok (.store true r dense) →
      Serves inner w q s order (w.inShape r.source)
        { q with pending := q.pending ++ [(r, dense)] } s (.ok ())
  | written {r : Region} {dense : Block} {s' : σ} :
      order.demand w (inner.isWriteable s) = .ok (.store false r dense) →
      inner.write r dense (inner.carryOut q.pending s).2 = (.ok (), s') →
      Serves inner w q s order (w.inShape r.source) .empty s' (.ok ())
  | refused {r : Region} {dense : Block} {context : String} {e : IoFailure} {s' : σ} :
      order.demand w (inner.isWriteable s) = .ok (.store false r dense) →
      inner.write r dense (inner.carryOut q.pending s).2 = (.error e, s') →
      Serves inner w q s order w .empty s' (.error (.ofIoFailure context e))

theorem flush_queue (w : Writeable τ) (inner : Saver σ) :
    (w.backedBy (Queue.saver inner)).flush =
      Task.ofAction ("flushing " ++ w.name) (Queue.flush inner) := rfl

theorem store_queue_sync (inner : Saver σ) (r : Region) (dense : Block) :
    store (Queue.saver inner) false r dense = Queue.write inner r dense := rfl

theorem store_queue_async {s : σ} (hopen : inner.isWriteable s) (r : Region) (dense : Block)
    (q : Queue) : store (Queue.saver inner) true r dense (q, s) =
      (.ok (), { q with pending := q.pending ++ [(r, dense)] }, s) := by
  change Queue.submit inner r dense (q, s) = _
  rw [Queue.submit, if_pos hopen]

theorem exists_serves (hx : x.account.handle = w.backedBy (Queue.saver inner)) (order : Order) :
    ∃ w' q s out, Serves inner w x.account.state.1 x.storage order w' q s out ∧
      (x.account.after order).handle = w'.backedBy (Queue.saver inner) ∧
      (x.account.after order).state = (q, s) ∧
      (x.account.after order).results = x.account.results ++ [out] := by
  obtain ⟨orders, given, ⟨handle, ⟨q, s⟩, results, calls⟩, attempts⟩ := x
  rw [Account.after_eq hx]
  have hopen : (Queue.saver inner).isWriteable (q, s) = inner.isWriteable s := rfl
  rw [hopen]
  cases hdemand : order.demand w (inner.isWriteable s) with
  | error e => exact ⟨w, q, s, .error e, .kept rfl rfl, hx, rfl, rfl⟩
  | ok demand =>
    rw [andThen_ok]
    cases demand with
    | nothing w' =>
      obtain ⟨hlazy, hmax⟩ := Order.demand_eq_nothing hdemand
      exact ⟨w', q, s, .ok (), .kept hlazy hmax, rfl, rfl, rfl⟩
    | flush =>
      simp only [Demand.run, flush_queue, run_bind, Task.run_ofAction, Queue.flush_eq]
      cases q.failure.or (Queue.firstFailed (inner.carryOut q.pending s).1) with
      | none => exact ⟨w, .empty, _, _, .flushed, rfl, rfl, rfl⟩
      | some e => exact ⟨w, .empty, _, _, .flushed, hx, rfl, rfl⟩
    | store isAsync r dense =>
      have hisOpen := (Order.demand_eq_store hdemand).1
      cases isAsync with
      | true =>
        refine ⟨_, _, s, .ok (), .submitted hdemand, ?_⟩
        simp only [Demand.run, run_bind, Task.run_ofAction, store_queue_async hisOpen]
        exact ⟨rfl, rfl, rfl⟩
      | false =>
        simp only [Demand.run, run_bind, Task.run_ofAction, store_queue_sync, Queue.write_eq]
        cases q.failure.or (Queue.firstFailed (inner.carryOut q.pending s).1) with
        | some e => exact ⟨w, .empty, _, _, .flushed, hx, rfl, rfl⟩
        | none =>
          rcases hwrite : inner.write r dense (inner.carryOut q.pending s).2 with ⟨e | ⟨⟨⟩⟩, s'⟩
          · exact ⟨w, .empty, s', _, .refused hdemand hwrite, hx, rfl, rfl⟩
          · exact ⟨_, .empty, s', _, .written hdemand hwrite, rfl, rfl, rfl⟩

/-! ## What is to come

Once the pending writes are thought of as carried out, the worker does nothing, and an order is one
write at most. -/

/-- The state of the storage once the writes that are pending are carried out. -/
def settled (inner : Saver σ) (x : Team σ) : σ := (inner.carryOut x.pending x.storage).2

theorem outlook_of_idle (h : x.pending = []) : x.outlook inner = x.attempts := by
  rw [outlook, h]
  exact append_nil _

theorem settled_of_idle (h : x.pending = []) : x.settled inner = x.storage := by
  rw [settled, h]
  rfl

/-- All that an order can do to a dataset, to the outcomes of writes that were handed over and to
the storage, once nothing is pending, and the result of the order. -/
inductive Advances (inner : Saver σ) (w : Writeable τ) (outs : List (Except IoFailure Unit)) (s : σ)
    (order : Order) :
    Writeable τ → List (Except IoFailure Unit) → σ → Except Error Unit → Prop where
  | kept {w' : Writeable τ} {out : Except Error Unit} : w'.lazy = w.lazy → w'.maxShape = w.maxShape →
      Advances inner w outs s order w' outs s out
  | handedOver {isOpen : Bool} {r : Region} {dense : Block} :
      order.demand w isOpen = .ok (.store true r dense) →
      Advances inner w outs s order (w.inShape r.source) (outs ++ [(inner.write r dense s).1])
        (inner.write r dense s).2 (.ok ())
  | written {isOpen : Bool} {r : Region} {dense : Block} {s' : σ} :
      order.demand w isOpen = .ok (.store false r dense) →
      inner.write r dense s = (.ok (), s') →
      Advances inner w outs s order (w.inShape r.source) outs s' (.ok ())
  | refused {isOpen : Bool} {r : Region} {dense : Block} {context : String} {e : IoFailure} {s' : σ} :
      order.demand w isOpen = .ok (.store false r dense) →
      inner.write r dense s = (.error e, s') →
      Advances inner w outs s order w outs s' (.error (.ofIoFailure context e))

theorem exists_advances (hx : x.account.handle = w.backedBy (Queue.saver inner)) (order : Order) :
    ∃ w' out, (x.account.after order).handle = w'.backedBy (Queue.saver inner) ∧
      (x.account.after order).results = x.account.results ++ [out] ∧
      Advances inner w (x.outlook inner) (x.settled inner) order w'
        ((x.moved inner (x.account.after order)).outlook inner)
        ((x.moved inner (x.account.after order)).settled inner) out := by
  obtain ⟨w', q, s, out, hserves, hhandle, hstate, hresults⟩ := exists_serves hx order
  refine ⟨w', out, hhandle, hresults, ?_⟩
  have hflush : x.attempts ++ (inner.carryOut (x.pending.take (x.pending.length - 0)) x.storage).1 =
      x.outlook inner := by
    rw [Nat.sub_zero, take_length, outlook]
  simp only [outlook, settled, moved, pending, storage, hstate] at hflush ⊢
  cases hserves with
  | kept hlazy hmax =>
    simp only [Nat.sub_self, take_zero, Saver.carryOut, append_nil]
    exact .kept hlazy hmax
  | flushed =>
    simp only [Queue.empty, length_nil, hflush, Saver.carryOut, append_nil]
    exact .kept rfl rfl
  | @submitted r dense hdemand =>
    have hnone : x.account.state.1.pending.length -
        (x.account.state.1.pending ++ [(r, dense)]).length = 0 := by
      rw [length_append]
      omega
    simp only [hnone, take_zero, Saver.carryOut, append_nil, Saver.carryOut_append, ← append_assoc]
    exact .handedOver hdemand
  | written hdemand hwrite =>
    simp only [Queue.empty, length_nil, hflush, Saver.carryOut, append_nil]
    exact .written hdemand hwrite
  | refused hdemand hwrite =>
    simp only [Queue.empty, length_nil, hflush, Saver.carryOut, append_nil]
    exact .refused hdemand hwrite

/-- What the client gives and where that leaves the team. -/
theorem step_client {next : σ → Order} {orders : List (σ → Order)} (h : x.orders = next :: orders) :
    x.step inner .client =
      { x.moved inner (x.account.after (next x.storage)) with
        orders := orders
        given := x.given ++ [next x.storage] } := by
  rw [step, h]

theorem outlook_worker (inner : Saver σ) (x : Team σ) :
    (x.step inner .worker).outlook inner = x.outlook inner ∧
      (x.step inner .worker).settled inner = x.settled inner := by
  obtain ⟨orders, given, ⟨handle, ⟨q, s⟩, results, calls⟩, attempts⟩ := x
  have hwork := Queue.workMany_eq inner 1 q s
  have htake : q.pending.take (q.pending.length - (q.pending.drop 1).length) =
      q.pending.take 1 := by
    cases q.pending <;> simp
  have hsplit := inner.carryOut_append (q.pending.take 1) (q.pending.drop 1) s
  rw [take_append_drop] at hsplit
  simp only [Queue.workMany] at hwork
  simp only [outlook, settled, step, moved, pending, storage, hwork, htake, hsplit,
    append_assoc, and_self]

/-- What holds of a dataset, of all results and outcomes and of the storage once nothing is pending,
if every order that is given keeps it. -/
theorem run_induction {P : Writeable τ → List (Except Error Unit) →
      List (Except IoFailure Unit) → σ → Prop} {Q : Order → Prop}
    (hstep : ∀ {w results outs s order w' outs' s' out}, Q order →
      Advances inner w outs s order w' outs' s' out → P w results outs s →
      P w' (results ++ [out]) outs' s')
    (hx : x.account.handle = w.backedBy (Queue.saver inner))
    (horders : ∀ next ∈ x.orders, ∀ s, Q (next s))
    (h : P w x.account.results (x.outlook inner) (x.settled inner)) (schedule : List Turn) :
    ∃ w', (x.run inner schedule).account.handle = w'.backedBy (Queue.saver inner) ∧
      P w' (x.run inner schedule).account.results ((x.run inner schedule).outlook inner)
        ((x.run inner schedule).settled inner) := by
  induction schedule generalizing x w with
  | nil => exact ⟨w, hx, h⟩
  | cons turn schedule ih =>
    rw [run, foldl_cons]
    cases turn with
    | worker =>
      obtain ⟨houtlook, hsettled⟩ := outlook_worker inner x
      exact ih hx horders (by rwa [houtlook, hsettled])
    | client =>
      cases hnext : x.orders with
      | nil =>
        have hidle : x.step inner .client = x := by rw [step, hnext]
        rw [hidle]
        exact ih hx horders h
      | cons next orders =>
        rw [hnext, forall_mem_cons] at horders
        obtain ⟨w', out, hx', hresults, hadvances⟩ := exists_advances hx (next x.storage)
        have h' := hstep (horders.1 x.storage) hadvances h
        rw [← hresults] at h'
        rw [step_client hnext]
        exact ih hx' horders.2 h'

/-- A dataset over a queue stays one, and what was handed over stays so. -/
theorem outlook_run (hx : x.account.handle = w.backedBy (Queue.saver inner))
    (schedule : List Turn) :
    ∃ w' : Writeable τ, (x.run inner schedule).account.handle = w'.backedBy (Queue.saver inner) ∧
      x.outlook inner <+: (x.run inner schedule).outlook inner := by
  refine run_induction (P := fun _ _ outs _ => x.outlook inner <+: outs) (Q := fun _ => True) ?_ hx
    (fun _ _ _ => trivial) prefix_rfl schedule
  intro w results outs s order w' outs' s' out _ hadvances hstays
  cases hadvances with
  | handedOver hdemand => exact hstays.trans (prefix_append _ _)
  | _ => exact hstays

/-! ## The team and the account -/

/-- The dataset over a queue is where the one of the other account is, but for what is pending; and
nothing has failed. -/
structure Awaits (inner : Saver σ) (x : Account (Queue × σ)) (y : Account σ) : Prop where
  handles : ∃ w : Writeable σ, x.handle = w.backedBy (Queue.saver inner) ∧
    y.handle = w.backedBy inner
  results_eq : x.results = y.results
  calls_eq : x.calls = y.calls
  failure_eq : x.state.1.failure = none
  state_eq : (inner.carryOut x.state.1.pending x.state.2).2 = y.state

theorem Awaits.worker {x : Account (Queue × σ)} (h : Awaits inner x y)
    (hquiet : ∀ out ∈ (inner.carryOut x.state.1.pending x.state.2).1, out = .ok ()) :
    Awaits inner { x with state := Queue.work inner x.state } y := by
  obtain ⟨handle, ⟨q, s⟩, results, calls⟩ := x
  have hwork := Queue.workMany_eq inner 1 q s
  simp only [Queue.workMany] at hwork
  have hsplit := inner.carryOut_append (q.pending.take 1) (q.pending.drop 1) s
  rw [take_append_drop] at hsplit
  have hfailed : Queue.firstFailed (inner.carryOut (q.pending.take 1) s).1 = none := by
    refine Queue.firstFailed_eq_none.mpr fun out hout => hquiet out ?_
    simp only [hsplit, mem_append, hout, true_or]
  refine ⟨h.handles, h.results_eq, h.calls_eq, ?_, ?_⟩
  · simp only [hwork, hfailed, Option.or_none]
    exact h.failure_eq
  · rw [← h.state_eq]
    simp only [hwork, hsplit]

/-- An order has the same result at once as over the queue, if what is pending before and after it
does not fail. -/
theorem Awaits.client {x : Account (Queue × σ)}
    (hkeeps : ∀ r d s, inner.isWriteable (inner.write r d s).2 = inner.isWriteable s)
    (hdirect : inner.background = none) (h : Awaits inner x y) (order : Order)
    (hquiet : ∀ out ∈ (inner.carryOut x.state.1.pending x.state.2).1, out = .ok ())
    (hquiet' : ∀ out ∈ (inner.carryOut (x.after order).state.1.pending (x.after order).state.2).1,
      out = .ok ()) : Awaits inner (x.after order) (y.after order) := by
  obtain ⟨handle, ⟨⟨pending, failure⟩, s⟩, results, calls⟩ := x
  obtain ⟨w, hx, hy⟩ := h.handles
  obtain rfl : failure = none := h.failure_eq
  have hstate : (inner.carryOut pending s).2 = y.state := h.state_eq
  have hfailed : Queue.firstFailed (inner.carryOut pending s).1 = none :=
    Queue.firstFailed_eq_none.mpr hquiet
  have hopen : inner.isWriteable y.state = inner.isWriteable s := by
    rw [← hstate]
    exact Saver.carryOut_induction
      (fun r d s' hs => (hkeeps r d s').trans hs) _ rfl
  have hopen' : (Queue.saver inner).isWriteable (⟨pending, none⟩, s) = inner.isWriteable s := rfl
  rw [Account.after_eq hx, hopen'] at hquiet' ⊢
  rw [Account.after_eq hy, hopen]
  cases hdemand : order.demand w (inner.isWriteable s) with
  | error e =>
    exact ⟨⟨w, hx, hy⟩, congrArg (· ++ [_]) h.results_eq, h.calls_eq, rfl, hstate⟩
  | ok demand =>
    rw [hdemand] at hquiet'
    rw [andThen_ok] at hquiet' ⊢
    rw [andThen_ok]
    cases demand with
    | nothing w' =>
      exact ⟨⟨w', rfl, rfl⟩, congrArg (· ++ [_]) h.results_eq, congrArg (· ++ []) h.calls_eq,
        rfl, hstate⟩
    | flush =>
      have hplain : (w.backedBy inner).flush = pure () := by
        simp only [flush, backedBy, Option.bind, hdirect]
      simp only [Demand.run, flush_queue, hplain, run_bind, Task.run_ofAction, Queue.flush_eq,
        hfailed]
      exact ⟨⟨w, rfl, rfl⟩, congrArg (· ++ [_]) h.results_eq, congrArg (· ++ []) h.calls_eq, rfl,
        hstate⟩
    | store isAsync r dense =>
      have hplain : store inner isAsync r dense = inner.write r dense := by
        cases isAsync <;> simp only [store, hdirect] <;> rfl
      simp only [Demand.run, run_bind, Task.run_ofAction, hplain] at hquiet' ⊢
      cases isAsync with
      | true =>
        rw [store_queue_async (Order.demand_eq_store hdemand).1] at hquiet' ⊢
        have hwrite : (inner.write r dense y.state).1 = .ok () := by
          refine hquiet' _ ?_
          rw [← hstate]
          change _ ∈ (inner.carryOut (pending ++ [(r, dense)]) s).1
          simp only [Saver.carryOut_append, Saver.carryOut_cons, mem_append, mem_cons,
            true_or, or_true]
        rw [hwrite]
        refine ⟨⟨w.inShape r.source, rfl, rfl⟩, congrArg (· ++ [_]) h.results_eq,
          congrArg (· ++ _) h.calls_eq, rfl, ?_⟩
        change (inner.carryOut (pending ++ [(r, dense)]) s).2 = (inner.write r dense y.state).2
        rw [Saver.carryOut_append, hstate]
        rfl
      | false =>
        simp only [store_queue_sync, Queue.write_eq, hfailed, hstate]
        rcases inner.write r dense y.state with ⟨e | ⟨⟨⟩⟩, s'⟩
        · exact ⟨⟨w, hx, hy⟩, congrArg (· ++ [_]) h.results_eq, h.calls_eq, rfl, rfl⟩
        · exact ⟨⟨w.inShape r.source, rfl, rfl⟩, congrArg (· ++ [_]) h.results_eq,
            congrArg (· ++ _) h.calls_eq, rfl, rfl⟩

/-! ## Runs -/

/-- Every run over a queue is one without it that gives the same orders, if nothing that is handed
over fails. -/
theorem Awaits.run (hkeeps : ∀ r d s, inner.isWriteable (inner.write r d s).2 = inner.isWriteable s)
    (hdirect : inner.background = none) (schedule : List Turn)
    (h : Awaits inner x.account (x.given.foldl Account.after y))
    (hquiet : ∀ out ∈ (x.run inner schedule).outlook inner, out = .ok ()) :
    Awaits inner (x.run inner schedule).account
      ((x.run inner schedule).given.foldl Account.after y) := by
  induction schedule generalizing x with
  | nil => exact h
  | cons turn schedule ih =>
    obtain ⟨w, hw, -⟩ := h.handles
    obtain ⟨w', hw', hstep⟩ := outlook_run hw [turn]
    obtain ⟨-, -, hstays⟩ := outlook_run hw' schedule
    have hafter : ∀ out ∈
        (inner.carryOut (x.step inner turn).pending (x.step inner turn).storage).1,
        out = .ok () :=
      fun out hout => hquiet out (hstays.subset (mem_append_right _ hout))
    have hbefore : ∀ out ∈ (inner.carryOut x.pending x.storage).1, out = .ok () :=
      fun out hout => hquiet out ((hstep.trans hstays).subset (mem_append_right _ hout))
    cases turn with
    | worker => exact ih (h.worker hbefore) hquiet
    | client =>
      cases hnext : x.orders with
      | nil =>
        have hidle : x.step inner .client = x := by rw [step, hnext]
        rw [run, foldl_cons, hidle] at hquiet ⊢
        exact ih h hquiet
      | cons next orders =>
        rw [step_client hnext] at hafter
        rw [run, foldl_cons, step_client hnext] at hquiet ⊢
        refine ih ?_ hquiet
        rw [foldl_append]
        exact h.client hkeeps hdirect _ hbefore hafter

/-- The client is still to flush, or has flushed as the last thing it did. -/
def Settles (x : Team σ) : Prop :=
  (∃ orders, x.orders = orders ++ [fun _ => Order.flush]) ∨ x.orders = [] ∧ x.pending = []

section

variable (hx : x.account.handle = w.backedBy (Queue.saver inner))
include hx

theorem pending_after_flush : (x.account.after .flush).state.1.pending = [] := by
  obtain ⟨orders, given, ⟨handle, ⟨q, s⟩, results, calls⟩, attempts⟩ := x
  rw [Account.after_eq hx]
  simp only [Order.demand, andThen_ok, Demand.run, flush_queue, run_bind, Task.run_ofAction,
    Queue.flush_eq]
  cases q.failure.or (Queue.firstFailed (inner.carryOut q.pending s).1) <;> rfl

theorem Settles.step (h : x.Settles) (turn : Turn) : (x.step inner turn).Settles := by
  cases turn with
  | worker =>
    refine h.imp id fun ⟨horders, hpending⟩ => ⟨horders, ?_⟩
    have hwork := Queue.workMany_eq inner 1 x.account.state.1 x.account.state.2
    have hdrop : x.account.state.1.pending.drop 1 = [] := by
      rw [show x.account.state.1.pending = [] from hpending]
      rfl
    exact (congrArg (·.1.pending) hwork).trans hdrop
  | client =>
    obtain ⟨orders, horders⟩ | ⟨horders, hpending⟩ := h
    · cases orders with
      | nil =>
        rw [Team.step, horders]
        exact .inr ⟨rfl, pending_after_flush hx⟩
      | cons order orders =>
        rw [Team.step, horders]
        exact .inl ⟨orders, rfl⟩
    · rw [Team.step, horders]
      exact .inr ⟨horders, hpending⟩

theorem Settles.run (h : x.Settles) (schedule : List Turn) : (x.run inner schedule).Settles := by
  induction schedule generalizing x w with
  | nil => exact h
  | cons turn schedule ih =>
    obtain ⟨w', hw', -⟩ := outlook_run hx [turn]
    exact ih hw' (h.step hx turn)

end

end Team

end Writeable

namespace Writeable.Team

/-- Orders that do not depend on what is stored. -/
def fixed (orders : List Order) : List (Memory → Order) := orders.map fun order _ => order

theorem two_grows : 2 + 1 < Word.modulus := by decide

/-- A list of numbers with a listener. -/
def numbers (length : Nat) : Writeable Unit :=
  { lazy := .of none (.int true .w32) "numbers" 1 [length]
    maxShape := [unlimited]
    chunks := none
    fill := .int 0
    writesAsync := false
    saver := none
    listeners := Listeners.empty.add "log" }

end Writeable.Team

end Hyperslab
