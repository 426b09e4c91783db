import Hyperslab.Saver.Queue
import Mathlib.Data.List.Induction

/-!
# Order of queued writes and report of failures

A client makes calls on a queue, one after another, while a worker carries out pending writes at
moments of its own choice. Whatever the schedule, the storage behind the queue is given the writes
in the order of the calls, and a flush reports the first failure that no flush has reported.

What the storage is given is seen by the storage itself: the saver behind the queue is one that
writes down every write together with its outcome.
-/
namespace Hyperslab

open List

variable {σ : Type}

/-- A write that storage was given, and its outcome. -/
structure Receipt where
  write : Region × Block
  out : Except IoFailure Unit

namespace Receipt

def failure (receipt : Receipt) : Option IoFailure :=
  match receipt.out with
  | .ok () => none
  | .error e => some e

def firstFailure (receipts : List Receipt) : Option IoFailure := receipts.findSome? failure

theorem firstFailure_append (l l' : List Receipt) :
    firstFailure (l ++ l') = (firstFailure l).or (firstFailure l') := findSome?_append

end Receipt

open Receipt (firstFailure)

/-- A saver that writes down every write it is given. -/
def Saver.recorded (inner : Saver σ) : Saver (σ × List Receipt) where
  isReadable t := inner.isReadable t.1
  read r := fun (s, log) =>
    let (out, s) := inner.read r s
    (out, s, log)
  isWriteable t := inner.isWriteable t.1
  write r d := fun (s, log) =>
    let (out, s) := inner.write r d s
    (out, s, log ++ [⟨(r, d), out⟩])
  setFill v := fun (s, log) => (inner.setFill v s, log)
  background := none

namespace Queue

/-! ## What the queue does to recorded storage -/

/-- From the queue `q` over a log, the writes of `got` were carried out, which leaves `q'`. -/
structure Carries (q q' : Queue) (log log' : List Receipt) (got : List Receipt) : Prop where
  log_eq : log' = log ++ got
  pending_eq : q.pending = got.map Receipt.write ++ q'.pending
  failure_eq : q'.failure = q.failure.or (firstFailure got)

theorem Carries.refl (q : Queue) (log : List Receipt) : q.Carries q log log [] :=
  ⟨(append_nil _).symm, rfl, (Option.or_none ..).symm⟩

theorem Carries.trans {q q' q'' : Queue} {log log' log'' got got' : List Receipt}
    (h : q.Carries q' log log' got) (h' : q'.Carries q'' log' log'' got') :
    q.Carries q'' log log'' (got ++ got') where
  log_eq := by rw [h'.log_eq, h.log_eq, append_assoc]
  pending_eq := by rw [h.pending_eq, h'.pending_eq, map_append, append_assoc]
  failure_eq := by
    rw [h'.failure_eq, h.failure_eq, Receipt.firstFailure_append, Option.or_assoc]

theorem work_carries (inner : Saver σ) (q : Queue) (t : σ × List Receipt) :
    ∃ q' t' got, work inner.recorded (q, t) = (q', t') ∧ q.Carries q' t.2 t'.2 got ∧
      got.length = min 1 q.pending.length := by
  obtain ⟨pending, failure⟩ := q
  obtain ⟨s, log⟩ := t
  match pending with
  | [] => exact ⟨_, _, [], rfl, .refl _ _, rfl⟩
  | (r, d) :: rest =>
    rcases hwrite : inner.write r d s with ⟨⟨e⟩ | ⟨⟨⟩⟩, s'⟩
    · refine ⟨⟨rest, failure.or (some e)⟩, (s', log ++ [⟨(r, d), .error e⟩]), [⟨(r, d), .error e⟩],
        ?_, ⟨rfl, rfl, rfl⟩, by simp⟩
      simp only [work, Saver.recorded, hwrite]
      cases failure <;> rfl
    · refine ⟨⟨rest, failure⟩, (s', log ++ [⟨(r, d), .ok ()⟩]), [⟨(r, d), .ok ()⟩],
        ?_, ⟨rfl, rfl, (Option.or_none ..).symm⟩, by simp⟩
      simp only [work, Saver.recorded, hwrite]

theorem workMany_carries (inner : Saver σ) (n : Nat) (q : Queue) (t : σ × List Receipt)
    (hn : n ≤ q.pending.length) : ∃ q' t' got, workMany inner.recorded n (q, t) = (q', t') ∧
      q.Carries q' t.2 t'.2 got ∧ got.length = n := by
  induction n generalizing q t with
  | zero => exact ⟨q, t, [], rfl, .refl _ _, rfl⟩
  | succ n ih =>
    obtain ⟨q₁, t₁, got, hwork, hcarries, hone⟩ := work_carries inner q t
    have hlength := congrArg length hcarries.pending_eq
    rw [length_append, length_map] at hlength
    obtain ⟨q₂, t₂, got', hmany, hcarries', hn'⟩ := ih q₁ t₁ (by omega)
    refine ⟨q₂, t₂, got ++ got', by rw [workMany, hwork, hmany], hcarries.trans hcarries', ?_⟩
    rw [length_append]
    omega

theorem drain_carries (inner : Saver σ) (q : Queue) (t : σ × List Receipt) :
    ∃ t' got, drain inner.recorded (q, t) = (⟨[], q.failure.or (firstFailure got)⟩, t') ∧
      t'.2 = t.2 ++ got ∧ got.map Receipt.write = q.pending := by
  obtain ⟨⟨pending, failure⟩, t', got, hmany, hcarries, hlength⟩ :=
    workMany_carries inner q.pending.length q t (Nat.le_refl _)
  have hsplit := congrArg length hcarries.pending_eq
  rw [length_append, length_map] at hsplit
  obtain rfl : pending = [] := eq_nil_of_length_eq_zero (by simp only at hsplit; omega)
  refine ⟨t', got, ?_, hcarries.log_eq, ?_⟩
  · rw [← hcarries.failure_eq]
    exact hmany
  · rw [hcarries.pending_eq, append_nil]

def report : Option IoFailure → Except IoFailure Unit
  | none => .ok ()
  | some e => .error e

theorem flush_recorded (inner : Saver σ) (q : Queue) (t : σ × List Receipt) :
    ∃ t' got, flush inner.recorded (q, t) = (report (q.failure.or (firstFailure got)), .empty, t') ∧
      t'.2 = t.2 ++ got ∧ got.map Receipt.write = q.pending := by
  obtain ⟨t', got, hdrain, hlog, hgot⟩ := drain_carries inner q t
  refine ⟨t', got, ?_, hlog, hgot⟩
  simp only [flush, hdrain]
  cases q.failure.or (firstFailure got) <;> rfl

/-! ## Calls and events -/

/-- A call on the queue. -/
inductive Call where
  | submit (w : Region × Block)
  | write (w : Region × Block)
  | flush

/-- Something that happened. A call that returned comes with the writes that storage was given
until then: first those of the writes that were pending, then the rest. -/
inductive Event where
  | worked (got : List Receipt)
  | returned (call : Call) (out : Except IoFailure Unit) (queued own : List Receipt)

namespace Event

/-- The call that returned. -/
def call : Event → Option Call
  | worked _ => none
  | returned call .. => some call

def carried : Event → List Receipt
  | worked got => got
  | returned _ _ queued _ => queued

/-- Writes that storage was given. -/
def received : Event → List Receipt
  | worked got => got
  | returned _ _ queued own => queued ++ own

/-- The failure of an earlier write that a flush, or the flush in a write, reported. -/
def reported : Event → Option IoFailure
  | returned .flush (.error e) _ _ => some e
  | returned (.write _) (.error e) _ [] => some e
  | _ => none

/-- A flush or a write returned. -/
def flushes : Event → Bool
  | returned .flush .. | returned (.write _) .. => true
  | _ => false

end Event

/-- Writes that the worker carried out since the last flush, when before `history` those are
`got`. -/
def unflushedFrom (got : List Receipt) (history : List Event) : List Receipt :=
  history.foldl (fun got e => if e.flushes then [] else got ++ e.carried) got

/-- Writes that the worker carried out since the last flush. -/
def unflushed (history : List Event) : List Receipt := unflushedFrom [] history

@[simp] theorem unflushed_concat (history : List Event) (e : Event) :
    unflushed (history ++ [e]) = if e.flushes then [] else unflushed history ++ e.carried := by
  simp [unflushed, unflushedFrom]

/-- Writes of a call that are to reach storage, when the worker carried out `got` since the last
flush: one that was taken, and one that is written at once and not refused because of a failure. -/
def Event.admitted (got : List Receipt) : Event → List (Region × Block)
  | returned (.submit w) (.ok ()) _ _ => [w]
  | returned (.write w) _ queued _ =>
      match firstFailure (got ++ queued) with
      | none => [w]
      | some _ => []
  | _ => []

/-- All writes of a history that are to reach storage, in the order of the calls. -/
def admittedFrom (got : List Receipt) : List Event → List (Region × Block)
  | [] => []
  | e :: history => e.admitted got ++ admittedFrom (unflushedFrom got [e]) history

/-- All writes of a whole history that are to reach storage. -/
def admitted (history : List Event) : List (Region × Block) := admittedFrom [] history

theorem admitted_concat (history : List Event) (e : Event) :
    admitted (history ++ [e]) = admitted history ++ e.admitted (unflushed history) := by
  suffices h : ∀ got, admittedFrom got (history ++ [e]) =
      admittedFrom got history ++ e.admitted (unflushedFrom got history) from h []
  induction history with
  | nil => simp [admittedFrom, unflushedFrom]
  | cons e' history ih => simp [admittedFrom, ih, unflushedFrom]

/-- Everything admitted has been given to storage, once and in order. -/
def Settled (history : List Event) : Prop :=
  (history.flatMap Event.received).map Receipt.write = admitted history

/-- What an event has to be after a history. A flush reports the first failure among the writes
that the worker carried out since the last flush, up to its return; the write of a call that only
then goes on to storage has the outcome that the call returns. -/
def Event.Explained (history : List Event) : Event → Prop
  | worked got => got.length ≤ 1
  | returned (.submit _) _ queued own => queued = [] ∧ own = []
  | returned .flush out queued own =>
      own = [] ∧ out = report (firstFailure (unflushed history ++ queued))
  | returned (.write w) out queued own =>
      match firstFailure (unflushed history ++ queued) with
      | none => own = [⟨w, out⟩]
      | some e => own = [] ∧ out = .error e

/-- An event that is explained reports the first failure that was not reported before, or leaves
it for later. -/
theorem Event.Explained.reported_or_kept {history : List Event} {e : Event}
    (h : e.Explained history) :
    e.reported.toList ++ (firstFailure (unflushed (history ++ [e]))).toList =
      (firstFailure (unflushed history ++ e.carried)).toList := by
  rw [unflushed_concat]
  rcases e with got | ⟨⟨w⟩ | ⟨w⟩ | _, out, queued, own⟩
  · rfl
  · rfl
  · simp only [Explained] at h
    simp only [flushes, carried]
    split at h
    · next hfirst =>
      rw [hfirst, h]
      cases out <;> rfl
    · next e hfirst =>
      rw [hfirst, h.1, h.2]
      rfl
  · obtain ⟨rfl, rfl⟩ := h
    simp only [flushes, carried]
    cases firstFailure (unflushed history ++ queued) <;> rfl

private theorem firstFailure_append_sublist (l l' : List Receipt) :
    (firstFailure (l ++ l')).toList.Sublist
      ((firstFailure l).toList ++ l'.filterMap Receipt.failure) := by
  rw [Receipt.firstFailure_append]
  cases firstFailure l with
  | none =>
    rw [firstFailure, ← head?_filterMap]
    cases l'.filterMap Receipt.failure <;> simp
  | some e => simp

theorem reported_sublist {history : List Event}
    (h : ∀ h e h', history = h ++ e :: h' → e.Explained h) :
    (history.filterMap Event.reported ++ (firstFailure (unflushed history)).toList).Sublist
      ((history.flatMap Event.carried).filterMap Receipt.failure) := by
  induction history using reverseRecOn with
  | nil => exact .refl _
  | append_singleton history e ih =>
    have hbefore := ih fun h₁ e' h' hsplit => h h₁ e' (h' ++ [e]) (by rw [hsplit]; simp)
    have hreported : [e].filterMap Event.reported = e.reported.toList := by
      cases hrep : e.reported <;> simp [hrep]
    rw [filterMap_append, hreported, append_assoc, (h history e [] rfl).reported_or_kept,
      flatMap_append, filterMap_append, flatMap_singleton]
    refine ((firstFailure_append_sublist _ _).append_left _).trans ?_
    rw [← append_assoc]
    exact hbefore.append_right _

/-! ## The client and the worker -/

/-- A client with the calls that it has still to make, the call whose return it waits for, and the
queue and the storage that it makes them on; and what has happened. -/
structure Client (σ : Type) where
  program : List Call
  waiting : Option Call
  queue : Queue
  store : σ × List Receipt
  history : List Event

/-- Who acts next. Storage may also be changed by others. -/
inductive Move (σ : Type) where
  | worker
  | client
  | elsewhere (f : σ → σ)

/-- Carries out a call. -/
def perform (inner : Saver σ) : Call → Action (Queue × (σ × List Receipt)) Unit
  | .submit w => submit inner.recorded w.1 w.2
  | .write w => write inner.recorded w.1 w.2
  | .flush => flush inner.recorded

/-- What a call does to the queue and returns, when storage is given first the pending writes and
then the rest. -/
def Call.Does (q q' : Queue) (out : Except IoFailure Unit) (queued own : List Receipt) :
    Call → Prop
  | submit w => queued = [] ∧ own = [] ∧
      q' = match out with
        | .ok () => { q with pending := q.pending ++ [w] }
        | .error _ => q
  | flush => queued.map Receipt.write = q.pending ∧ q' = .empty ∧ own = [] ∧
      out = report (q.failure.or (firstFailure queued))
  | write w => queued.map Receipt.write = q.pending ∧ q' = .empty ∧
      match q.failure.or (firstFailure queued) with
      | none => own = [⟨w, out⟩]
      | some e => own = [] ∧ out = .error e

theorem perform_does (inner : Saver σ) (call : Call) (q : Queue) (t : σ × List Receipt) :
    ∃ out q' t' queued own, perform inner call (q, t) = (out, q', t') ∧
      t'.2 = t.2 ++ (queued ++ own) ∧ call.Does q q' out queued own := by
  cases call with
  | submit w =>
    simp only [perform, submit]
    split
    · exact ⟨_, _, t, [], [], rfl, by simp, rfl, rfl, rfl⟩
    · exact ⟨_, _, t, [], [], rfl, by simp, rfl, rfl, rfl⟩
  | flush =>
    obtain ⟨t', got, hflush, hlog, hgot⟩ := flush_recorded inner q t
    exact ⟨_, _, t', got, [], hflush, by simp [hlog], hgot, rfl, rfl, rfl⟩
  | write w =>
    obtain ⟨t', got, hflush, hlog, hgot⟩ := flush_recorded inner q t
    cases hfailure : q.failure.or (firstFailure got) with
    | none =>
      rw [hfailure] at hflush
      refine ⟨(inner.write w.1 w.2 t'.1).1, .empty, ((inner.write w.1 w.2 t'.1).2,
        t'.2 ++ [⟨w, (inner.write w.1 w.2 t'.1).1⟩]), got, [⟨w, (inner.write w.1 w.2 t'.1).1⟩],
        ?_, by simp [hlog], hgot, rfl, by rw [hfailure]⟩
      simp only [perform, write, hflush]
      rfl
    | some e =>
      rw [hfailure] at hflush
      refine ⟨.error e, .empty, t', got, [], ?_, by simp [hlog], hgot, rfl, by
        rw [hfailure]; exact ⟨rfl, rfl⟩⟩
      simp only [perform, write, hflush, report]

section Does

variable {call : Call} {q q' : Queue} {out : Except IoFailure Unit} {queued own : List Receipt}

variable (h : call.Does q q' out queued own)
include h

/-- Storage is given the pending writes and then what the call admits, unless that is now
pending. -/
theorem Call.Does.order_eq {got : List Receipt} (hfailure : q.failure = firstFailure got) :
    (queued ++ own).map Receipt.write ++ q'.pending =
      q.pending ++ (Event.returned call out queued own).admitted got := by
  cases call with
  | submit w =>
    obtain ⟨rfl, rfl, rfl⟩ := h
    rcases out with e | ⟨⟨⟩⟩
    · simp [Event.admitted]
    · rfl
  | flush =>
    obtain ⟨hqueued, rfl, rfl, -⟩ := h
    simp [hqueued, Event.admitted, empty]
  | write w =>
    obtain ⟨hqueued, rfl, h⟩ := h
    rw [hfailure, ← Receipt.firstFailure_append] at h
    simp only [Event.admitted, ← hqueued, empty, map_append]
    split at h
    · simp [h]
    · simp [h.1]

theorem Call.Does.explained {history : List Event}
    (hfailure : q.failure = firstFailure (unflushed history)) :
    (Event.returned call out queued own).Explained history := by
  have hfirst : q.failure.or (firstFailure queued) =
      firstFailure (unflushed history ++ queued) := by
    rw [hfailure, Receipt.firstFailure_append]
  cases call with
  | submit w => exact ⟨h.1, h.2.1⟩
  | flush => exact ⟨h.2.2.1, hfirst ▸ h.2.2.2⟩
  | write w =>
    have := h.2.2
    rwa [hfirst] at this

/-- A flush forgets the failure, and so does the flush in a write. -/
theorem Call.Does.failure_eq {history : List Event}
    (hfailure : q.failure = firstFailure (unflushed history)) :
    q'.failure = firstFailure (unflushed (history ++ [.returned call out queued own])) := by
  cases call with
  | submit w =>
    obtain ⟨rfl, rfl, rfl⟩ := h
    rcases out with e | ⟨⟨⟩⟩ <;> simpa [Event.flushes, Event.carried] using hfailure
  | flush | write =>
    rw [h.2.1]
    simp [Event.flushes, empty, firstFailure]

theorem Call.Does.pending_eq_nil
    (hflushes : (Event.returned call out queued own).flushes) : q'.pending = [] := by
  cases call with
  | submit w => cases hflushes
  | flush | write => rw [h.2.1]; rfl

theorem Call.Does.length_pending_le : q'.pending.length ≤ q.pending.length + 1 := by
  cases call with
  | submit w =>
    obtain ⟨-, -, rfl⟩ := h
    rcases out with e | ⟨⟨⟩⟩ <;> simp
  | flush | write => simp [h.2.1, empty]

end Does

namespace Client

/-- A client with an empty queue. -/
def start (program : List Call) (s : σ) : Client σ := ⟨program, none, .empty, (s, []), []⟩

/-- The worker takes a pending write, if there is one. -/
def work (inner : Saver σ) (x : Client σ) : Client σ :=
  let (q, t) := Queue.work inner.recorded (x.queue, x.store)
  { x with
    queue := q
    store := t
    history := x.history ++ [.worked (t.2.drop x.store.2.length)] }

/-- The call that the client waits for returns. Whatever is then still pending is carried out
first if the call is one that flushes. -/
def resume (inner : Saver σ) (call : Call) (x : Client σ) : Client σ :=
  let (out, q, t) := perform inner call (x.queue, x.store)
  let got := t.2.drop x.store.2.length
  let pending := x.queue.pending.length
  { x with
    waiting := none
    queue := q
    store := t
    history := x.history ++ [.returned call out (got.take pending) (got.drop pending)] }

/-- One move. The client makes its next call, or has the call return that it waits for. -/
def step (inner : Saver σ) (x : Client σ) : Move σ → Client σ
  | .worker => x.work inner
  | .client =>
      match x.waiting, x.program with
      | some call, _ => x.resume inner call
      | none, call :: program => { x with program := program, waiting := some call }
      | none, [] => x
  | .elsewhere f => { x with store := (f x.store.1, x.store.2) }

/-- All moves of a schedule. -/
def run (inner : Saver σ) (x : Client σ) (schedule : List (Move σ)) : Client σ :=
  schedule.foldl (step inner) x

/-! ## What every move keeps -/

theorem work_eq (inner : Saver σ) (x : Client σ) : ∃ q t got,
    x.work inner = { x with queue := q, store := t, history := x.history ++ [.worked got] } ∧
      x.queue.Carries q x.store.2 t.2 got ∧ got.length = min 1 x.queue.pending.length := by
  obtain ⟨q, t, got, hwork, hcarries, hlength⟩ := work_carries inner x.queue x.store
  refine ⟨q, t, got, ?_, hcarries, hlength⟩
  simp only [work, hwork, hcarries.log_eq, drop_left]

theorem resume_eq (inner : Saver σ) (call : Call) (x : Client σ) : ∃ out q t queued own,
    x.resume inner call = { x with
      waiting := none, queue := q, store := t
      history := x.history ++ [.returned call out queued own] } ∧
      t.2 = x.store.2 ++ (queued ++ own) ∧ call.Does x.queue q out queued own := by
  obtain ⟨out, q, t, queued, own, hperform, hlog, hdoes⟩ := perform_does inner call x.queue x.store
  have hsplit : (queued ++ own).take x.queue.pending.length = queued ∧
      (queued ++ own).drop x.queue.pending.length = own := by
    cases call with
    | submit w => simp [hdoes.1, hdoes.2.1]
    | flush | write => simp [← hdoes.1]
  refine ⟨out, q, t, queued, own, ?_, hlog, hdoes⟩
  simp only [resume, hperform, hlog, drop_left, hsplit.1, hsplit.2]

/-- What is true of a client at every moment. -/
structure Kept (program : List Call) (x : Client σ) : Prop where
  calls_eq : x.history.filterMap Event.call ++ (x.waiting.toList ++ x.program) = program
  log_eq : x.store.2 = x.history.flatMap Event.received
  order_eq : x.store.2.map Receipt.write ++ x.queue.pending = admitted x.history
  failure_eq : x.queue.failure = firstFailure (unflushed x.history)
  explained : ∀ h e h', x.history = h ++ e :: h' →
    e.Explained h ∧ (e.flushes = true → Settled (h ++ [e]))

variable {program : List Call} {x : Client σ}

/-- What holds of every event after the events before it, and of one more event. -/
private theorem forall_splits_concat {P : List Event → Event → Prop} {history : List Event}
    {e : Event} (h : ∀ h e h', history = h ++ e :: h' → P h e) (he : P history e) :
    ∀ h e' h', history ++ [e] = h ++ e' :: h' → P h e' := by
  intro h₁ e' h' hsplit
  rcases eq_nil_or_concat h' with rfl | ⟨h₂, last, rfl⟩
  · obtain ⟨rfl, hlast⟩ := append_inj' hsplit rfl
    cases hlast
    exact he
  · rw [concat_eq_append, ← cons_append, ← append_assoc] at hsplit
    exact h _ _ _ (append_inj' hsplit rfl).1

theorem kept_start (program : List Call) (s : σ) : (start program s).Kept program where
  calls_eq := rfl
  log_eq := rfl
  order_eq := rfl
  failure_eq := rfl
  explained h e h' hsplit := by simp [start] at hsplit

theorem Kept.work (h : x.Kept program) (inner : Saver σ) : (x.work inner).Kept program := by
  obtain ⟨q, t, got, hwork, hcarries, hlength⟩ := x.work_eq inner
  rw [hwork]
  refine ⟨?_, ?_, ?_, ?_, forall_splits_concat h.explained ⟨?_, nofun⟩⟩
  · simp only [filterMap_append, append_assoc]
    exact h.calls_eq
  · simp [hcarries.log_eq, h.log_eq, Event.received]
  · simp only [hcarries.log_eq, map_append, append_assoc, ← hcarries.pending_eq,
      h.order_eq, admitted_concat]
    exact (append_nil _).symm
  · simp [hcarries.failure_eq, h.failure_eq, Event.flushes, Event.carried,
      Receipt.firstFailure_append]
  · exact Nat.le_trans (Nat.le_of_eq hlength) (Nat.min_le_left ..)

theorem Kept.resume {call : Call} (h : x.Kept program) (hwaiting : x.waiting = some call)
    (inner : Saver σ) : (x.resume inner call).Kept program := by
  obtain ⟨out, q, t, queued, own, hresume, hlog, hdoes⟩ := x.resume_eq inner call
  rw [hresume]
  have hreceived : t.2 =
      (x.history ++ [Event.returned call out queued own]).flatMap Event.received := by
    simp [hlog, h.log_eq, Event.received]
  have horder : t.2.map Receipt.write ++ q.pending =
      admitted (x.history ++ [Event.returned call out queued own]) := by
    rw [hlog, map_append, append_assoc, hdoes.order_eq h.failure_eq, ← append_assoc,
      h.order_eq, admitted_concat]
  refine ⟨?_, hreceived, horder, hdoes.failure_eq h.failure_eq,
    forall_splits_concat h.explained ⟨hdoes.explained h.failure_eq, fun hflushes => ?_⟩⟩
  · rw [← h.calls_eq, hwaiting, filterMap_append, append_assoc]
    rfl
  · rw [hdoes.pending_eq_nil hflushes, append_nil, hreceived] at horder
    exact horder

theorem Kept.step (h : x.Kept program) (inner : Saver σ) (move : Move σ) :
    (x.step inner move).Kept program := by
  cases move with
  | worker => exact h.work inner
  | elsewhere f => exact ⟨h.calls_eq, h.log_eq, h.order_eq, h.failure_eq, h.explained⟩
  | client =>
    rw [Client.step]
    split
    · next hwaiting => exact h.resume hwaiting inner
    · next hwaiting hprogram =>
      refine ⟨?_, h.log_eq, h.order_eq, h.failure_eq, h.explained⟩
      rw [← h.calls_eq, hwaiting, hprogram]
      rfl
    · exact h

theorem Kept.run (h : x.Kept program) (inner : Saver σ) (schedule : List (Move σ)) :
    (x.run inner schedule).Kept program := by
  induction schedule generalizing x with
  | nil => exact h
  | cons move schedule ih => exact ih (h.step inner move)

/-! ## What comes of a schedule -/

/-- What is left to do, weighed so that every step of it counts. -/
private def remaining (x : Client σ) : Nat :=
  x.queue.pending.length + 2 * x.waiting.toList.length + 3 * x.program.length

private theorem exists_remaining_lt (inner : Saver σ) (hx : 0 < x.remaining) :
    ∃ move, (x.step inner move).remaining < x.remaining := by
  by_cases hpending : x.queue.pending.length = 0
  · refine ⟨.client, ?_⟩
    rw [step]
    split
    · next _ call hwaiting =>
      obtain ⟨out, q, t, queued, own, hresume, -, hdoes⟩ := x.resume_eq inner call
      have hlength := hdoes.length_pending_le
      simp only [hresume, remaining, hwaiting, Option.toList_none, Option.toList_some,
        length_nil, length_singleton]
      omega
    · next call rest hwaiting hprogram =>
      simp only [remaining, hprogram, Option.toList_some,
        length_nil, length_cons]
      omega
    · next hwaiting hprogram =>
      simp [remaining, hwaiting, hprogram, hpending] at hx
  · obtain ⟨q, t, got, hwork, hcarries, hlength⟩ := x.work_eq inner
    have hsplit := congrArg length hcarries.pending_eq
    rw [length_append, length_map] at hsplit
    refine ⟨.worker, ?_⟩
    simp only [step, hwork, remaining]
    omega

/-- Every schedule can be continued until all calls have returned and nothing is pending. -/
theorem exists_run_finished (inner : Saver σ) (x : Client σ) : ∃ more : List (Move σ),
    (x.run inner more).program = [] ∧ (x.run inner more).waiting = none ∧
      (x.run inner more).queue.pending = [] := by
  by_cases hx : 0 < x.remaining
  · obtain ⟨move, hmove⟩ := exists_remaining_lt inner hx
    obtain ⟨more, hmore⟩ := exists_run_finished inner (x.step inner move)
    exact ⟨move :: more, hmore⟩
  · refine ⟨[], ?_⟩
    simp only [remaining, Nat.not_lt, Nat.le_zero, Nat.add_eq_zero_iff, Nat.mul_eq_zero] at hx
    simpa [run, and_comm, and_assoc] using hx
termination_by x.remaining

/-- **Queued writes are carried out in order, and failures are reported once**, for any saver, calls
and schedule. Storage has been given what was admitted and is not pending, in order, and all of it
when a flush or a write returns. Every event is explained by those before it: a flush reports the
first failure since the last one. Any schedule can be continued until nothing is pending. -/
theorem ordered_and_reported (inner : Saver σ) (s : σ) (program : List Call)
    (schedule : List (Move σ)) :
    let x := (start program s).run inner schedule
    x.history.filterMap Event.call ++ (x.waiting.toList ++ x.program) = program ∧
      x.store.2 = x.history.flatMap Event.received ∧
      x.store.2.map Receipt.write ++ x.queue.pending = admitted x.history ∧
      (∀ h e h', x.history = h ++ e :: h' →
        e.Explained h ∧ (e.flushes = true → Settled (h ++ [e]))) ∧
      (x.history.filterMap Event.reported).Sublist
        ((x.history.flatMap Event.carried).filterMap Receipt.failure) ∧
      ∃ more : List (Move σ), (x.run inner more).program = [] ∧ (x.run inner more).waiting = none ∧
        (x.run inner more).queue.pending = [] := by
  intro x
  have h : x.Kept program := (kept_start program s).run inner schedule
  have hreported := reported_sublist fun h₁ e h' hsplit => (h.explained h₁ e h' hsplit).1
  exact ⟨h.calls_eq, h.log_eq, h.order_eq, h.explained,
    (List.sublist_append_left _ _).trans hreported, exists_run_finished inner x⟩

/-- Storage without a state that fails every write. -/
def failing (e : IoFailure) : Saver Unit where
  isReadable _ := false
  read _ := fun s => (.error e, s)
  isWriteable _ := true
  write _ _ := fun s => (.error e, s)
  setFill _ s := s
  background := none

-- The second flush has nothing to report, and the write is refused because of the second failure.
example (e : IoFailure) (w w' : Region × Block) :
    let x := (start [.submit w, .flush, .flush, .submit w', .write w] ()).run (failing e)
      [.client, .client, .client, .worker, .client, .client, .client, .client, .client, .client,
        .worker, .client]
    x.history = [.returned (.submit w) (.ok ()) [] [], .worked [⟨w, .error e⟩],
        .returned .flush (.error e) [] [], .returned .flush (.ok ()) [] [],
        .returned (.submit w') (.ok ()) [] [], .worked [⟨w', .error e⟩],
        .returned (.write w) (.error e) [] []] ∧
      x.store.2 = [⟨w, .error e⟩, ⟨w', .error e⟩] := by
  constructor <;> cbv

end Client

end Queue

end Hyperslab
