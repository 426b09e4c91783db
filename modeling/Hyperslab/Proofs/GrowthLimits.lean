import Hyperslab.Proofs.WriteableStore

/-!
# How writeable datasets grow

A writeable dataset passes writes to a saver of which nothing is known: it may refuse writes, fail
after having stored half of them, put them off, or change its mind from one moment to the next.
Whatever it does, the dataset keeps its rank, grows within its limits and never shrinks. Only a
write that goes through and has something to store changes the shape, and only then are listeners
called.
-/
namespace Hyperslab

open List Region

/-! ## Lengths of axes -/

namespace Shape

variable {s t u : Shape}

theorem forall₂_le_trans (hst : Forall₂ (· ≤ ·) s t) (htu : Forall₂ (· ≤ ·) t u) :
    Forall₂ (· ≤ ·) s u := by
  induction hst generalizing u with
  | nil => exact htu
  | cons hab _ ih =>
    cases htu with
    | cons hbc htu => exact .cons (hab.trans hbc) (ih htu)

theorem eq_of_forall₂_le (hst : Forall₂ (· ≤ ·) s t) (hts : Forall₂ (· ≤ ·) t s) : s = t := by
  induction hst with
  | nil => rfl
  | cons hab _ ih =>
    cases hts with
    | cons hba hts => rw [hab.antisymm hba, ih hts]

end Shape

/-! ## Limits of regions -/

namespace Region

variable {r r' : Region} {s limits : Shape} {axis : Nat} {slice : Slice} {slices : List Slice}

theorem forall₂_of_allows (h : allows limits s) : Forall₂ (· ≤ ·) s limits := by
  simp only [allows, Bool.and_eq_true, beq_iff_eq, all_eq_true, decide_eq_true_eq] at h
  rw [forall₂_iff_zip]
  exact ⟨h.1.symm, fun {a b} hab => h.2 (a, b) hab⟩

/-- A slice that makes its axis longer ends within the limit of the axis. -/
theorem source_le_setAxis (hlimits : r.limits = some limits)
    (hle : Forall₂ (· ≤ ·) r.source limits) (h : r.setAxis axis slice = .ok r') :
    r'.limits = some limits ∧ Forall₂ (· ≤ ·) r'.source limits := by
  unfold setAxis at h
  split at h
  · cases h
  simp only [bind_eq_ok, pure_eq_ok, limit, hlimits, Option.elim_some] at h
  obtain ⟨length, -, l, hl, span, hspan, rfl⟩ := h
  refine ⟨rfl, ?_⟩
  simp only [Bool.and_eq_true, decide_eq_true_eq]
  split
  · next hgrows =>
    have hlast := (Slice.ends_of_resolve hspan).2 (Nat.pos_of_ne_zero hgrows.1.1) hgrows.1.2
    have hentry : limits[axis]? = some l := by
      unfold entry at hl
      split at hl <;> simp_all
    rw [forall₂_iff_get] at hle ⊢
    refine ⟨by simpa using hle.1, fun i hi hi' => ?_⟩
    simp only [get_eq_getElem, getElem_set]
    split
    · next heq =>
      subst heq
      have hget : limits[axis] = l := by
        rwa [getElem?_eq_getElem hi', Option.some.injEq] at hentry
      omega
    · exact hle.2 i (by simpa using hi) hi'
  · exact hle

/-- **A region that may grow its source stays within the limits.** -/
theorem source_le_ofSlicesWithin (h : ofSlicesWithin s limits slices = .ok r) :
    Forall₂ (· ≤ ·) r.source limits := by
  unfold ofSlicesWithin at h
  split at h
  · next hallows =>
    unfold setAxes at h
    split at h
    · cases h
    · refine (foldlM_induction (P := fun r => r.limits = some limits ∧
        Forall₂ (· ≤ ·) r.source limits) ?_ ⟨rfl, forall₂_of_allows hallows⟩ h).2
      intro _ _ _ _ hr hstep
      exact source_le_setAxis hr.1 hr.2 hstep
  · cases h

end Region

/-- Attached errors fit the shape, and nothing else of the dataset changes. -/
theorem Lazy.setErrors_eq_ok {σ : Type} {l l' : Lazy σ} {errors : Field}
    (h : l.setErrors errors = .ok l') :
    errors.rank ≤ l.rank ∧ Shape.broadcast errors.shape l.shape = .ok l.shape ∧
      ∃ m, l.metadata.setErrors l.rank errors = .ok m ∧ l' = { l with metadata := m } := by
  unfold setErrors at h
  split at h
  · cases h
  · next hrank =>
    simp only [bind_eq_ok] at h
    obtain ⟨s, hs, h⟩ := h
    split at h
    · cases h
    · next heq =>
      simp only [bind_eq_ok, pure_eq_ok] at h
      obtain ⟨m, hm, rfl⟩ := h
      exact ⟨Nat.not_lt.mp hrank, (not_not.mp heq) ▸ hs, m, hm, rfl⟩

theorem Task.eq_ok_of_run_ofAction {σ α : Type} {context : String} {a : Action σ α} {x : α}
    {s s' : σ} (h : (ofAction context a).run s = (.ok x, s')) : a s = (.ok x, s') := by
  rw [run_ofAction] at h
  rcases ha : a s with ⟨e | y, s''⟩ <;> rw [ha] at h <;> cases h
  rfl

namespace Writeable

variable {σ : Type} {w w' : Writeable σ} {r : Region} {s s' : σ}
  {calls : List (String × Event)}

/-! ## One write -/

/-- A region that is not refused does not reach past the maximum shape. An axis without a limit may
become as long as a word can say. -/
theorem source_le_maxShape (hw : Forall₂ (· ≤ ·) w.shape w.maxShape)
    (hr : ∀ d ∈ r.source, d < Word.modulus) (h : w.checkRegion r = .ok ()) :
    Forall₂ (· ≤ ·) r.source w.maxShape := by
  unfold checkRegion at h
  split at h
  · next hfits =>
    obtain ⟨hlength, hall⟩ := hfits
    generalize w.shape = shape at hw hlength hall
    generalize w.maxShape = limits at hw hall
    generalize r.source = source at hr hlength hall
    induction hw generalizing source with
    | nil =>
      rw [eq_nil_of_length_eq_zero hlength]
      exact .nil
    | @cons length limit shape limits hle _ ih =>
      obtain ⟨d, source, rfl⟩ := exists_cons_of_length_eq_add_one hlength
      simp only [zip_cons_cons, all_cons, Bool.and_eq_true] at hall
      have hd : d ≤ limit := by
        have hword := hr d mem_cons_self
        have hfits := hall.1
        simp only [axisFits, unlimited, Bool.or_eq_true, Bool.and_eq_true, beq_iff_eq,
          decide_eq_true_eq] at hfits
        omega
      exact .cons hd (ih source (fun e he => hr e (mem_cons_of_mem _ he))
        (Nat.succ.inj hlength) hall.2)
  · cases h

theorem write_eq_ok {isAsync : Bool} {data : Block}
    (h : (w.write isAsync r data).run s = (.ok (w', calls), s')) :
    w.checkRegion r = .ok () ∧ ∃ saver, w.openSaver s = .ok saver ∧
      (r.size = 0 ∧ w' = w ∧ calls = [] ∧ s' = s ∨
        r.size ≠ 0 ∧ w' = { w with lazy := { w.lazy with shape := r.source } } ∧
          calls = w.listeners.fire ⟨w.name, r.source⟩ ∧
          ∃ dense, store saver isAsync r dense s = (.ok (), s')) := by
  simp only [write, run_bind_eq_ok, run_lift_eq_ok] at h
  obtain ⟨⟨⟩, _, ⟨hcheck, rfl⟩, _, _, hget, saver, _, ⟨hsaver, rfl⟩, size, _, ⟨hword, rfl⟩, h⟩ := h
  cases hget
  refine ⟨hcheck, saver, hsaver, ?_⟩
  obtain rfl : r.size = size := Shape.size_of_sizeWord hword
  by_cases hsize : r.size = 0
  · rw [if_pos hsize] at h
    obtain ⟨⟨rfl, rfl⟩, rfl⟩ := h
    exact .inl ⟨hsize, rfl, rfl, rfl⟩
  · simp only [if_neg hsize, run_bind_eq_ok, run_lift_eq_ok] at h
    obtain ⟨dense, _, ⟨-, rfl⟩, ⟨⟩, _, hstore, ⟨rfl, rfl⟩, rfl⟩ := h
    exact .inr ⟨hsize, rfl, rfl, dense, Task.eq_ok_of_run_ofAction hstore⟩

/-- A write to a region, or to the one that lists of starts, stops and steps give. The lengths of
axes are machine words. -/
inductive Write where
  | region (isSync : Bool) (r : Region) (hr : ∀ d ∈ r.source, d < Word.modulus) (data : Block)
  | arrays (data : Block) (start stop step : Option (List Int))

namespace Write

variable {call : Write}

/-- The region that a write goes to. -/
def target (w : Writeable σ) : Write → Except Error Region
  | region _ r _ _ => .ok r
  | arrays _ start stop step => do
      w.region (← Region.slicesOfArrays w.lazy.rank start stop step)

/-- The write need not wait until its data is stored. -/
def isAsync (w : Writeable σ) : Write → Bool
  | region isSync _ _ _ => !isSync && w.writesAsync
  | arrays .. => w.writesAsync

/-- The data that is written. -/
def data : Write → Block
  | region _ _ _ data => data
  | arrays data _ _ _ => data

/-- Carries out a write: the handle afterwards and the calls to listeners. -/
def run (w : Writeable σ) : Write → Task σ (Writeable σ × List (String × Event))
  | region isSync r _ data => w.write (!isSync && w.writesAsync) r data
  | arrays data start stop step => w.writeArrays data start stop step

/-- A write as a step on a stage. -/
def perform : Write → StageM σ Unit
  | region isSync r _ data => do Stage.write (!isSync && (← get).handle.writesAsync) r data
  | arrays data start stop step => Stage.writeArrays data start stop step

/-- Both ways of saying where to write come to a write to the region. -/
theorem run_eq (call : Write) (w : Writeable σ) (s : σ) : (call.run w).run s =
    andThen (call.target w, s) fun r => w.write (call.isAsync w) r call.data := by
  cases call with
  | region isSync r hr data => rfl
  | arrays data start stop step =>
    simp only [run, writeArrays, run_bind, run_lift, target]
    cases slicesOfArrays w.lazy.rank start stop step with
    | error e => rfl
    | ok slices =>
      rw [andThen_ok, run_bind]
      rfl

theorem run_eq_ok (h : (call.run w).run s = (.ok (w', calls), s')) :
    ∃ r, call.target w = .ok r ∧ w.checkRegion r = .ok () ∧
      ∃ saver, w.openSaver s = .ok saver ∧
        (r.size = 0 ∧ w' = w ∧ calls = [] ∧ s' = s ∨
          r.size ≠ 0 ∧ w' = { w with lazy := { w.lazy with shape := r.source } } ∧
            calls = w.listeners.fire ⟨w.name, r.source⟩ ∧
            ∃ dense, store saver (call.isAsync w) r dense s = (.ok (), s')) := by
  rw [run_eq] at h
  cases htarget : call.target w with
  | error e =>
    rw [htarget] at h
    cases h
  | ok r =>
    rw [htarget] at h
    exact ⟨r, rfl, write_eq_ok h⟩

theorem source_le_maxShape (hw : Forall₂ (· ≤ ·) w.shape w.maxShape)
    (htarget : call.target w = .ok r) (hcheck : w.checkRegion r = .ok ()) :
    Forall₂ (· ≤ ·) r.source w.maxShape := by
  cases call with
  | region isSync r hr data =>
    cases htarget
    exact Writeable.source_le_maxShape hw hr hcheck
  | arrays data start stop step =>
    simp only [target, bind_eq_ok] at htarget
    obtain ⟨slices, -, hregion⟩ := htarget
    exact source_le_ofSlicesWithin hregion

end Write

/-! ## Requests -/

/-- What is asked of a writeable dataset. Meanwhile the saver may go on by itself. -/
inductive Request (σ : Type) where
  | write (call : Write)
  | setFill (v : Scalar)
  | setSaver (saver : Saver σ)
  | setAsync (isAsync : Bool)
  | addListener (name : String)
  | removeListener (name : String)
  | setErrors (errors : Field)
  | attach (m : Metadata)
  | read (r : Region)
  | flush
  | goOn (f : σ → σ)

/-- Carries out a request: the handle afterwards and the calls to listeners. -/
def Request.run (w : Writeable σ) : Request σ → Task σ (Writeable σ × List (String × Event))
  | write call => call.run w
  | setFill v => do return (← modifyGet (w.setFill v), [])
  | setSaver saver => do return (← modifyGet (w.setSaver saver), [])
  | setAsync isAsync => return ({ w with writesAsync := isAsync }, [])
  | addListener name => return ({ w with listeners := w.listeners.add name }, [])
  | removeListener name => return ({ w with listeners := w.listeners.remove name }, [])
  | setErrors errors => do return ({ w with lazy := ← w.lazy.setErrors errors }, [])
  | attach m => return ({ w with lazy := { w.lazy with metadata := m } }, [])
  | read r => do
      let _ ← w.lazy.sliceInWords r
      return (w, [])
  | flush => do
      w.flush
      return (w, [])
  | goOn f => do
      modifyGet fun s => ((), f s)
      return (w, [])

/-- A request other than a write leaves the shape and its limits, and nobody hears of it. -/
theorem Request.run_eq_ok {q : Request σ} (hq : ∀ call, q ≠ .write call)
    (h : (q.run w).run s = (.ok (w', calls), s')) :
    w'.shape = w.shape ∧ w'.maxShape = w.maxShape ∧ calls = [] := by
  cases q with
  | write call => exact absurd rfl (hq call)
  | setErrors errors =>
    simp only [run, run_bind_eq_ok, run_lift_eq_ok] at h
    obtain ⟨l, _, ⟨hl, rfl⟩, ⟨rfl, rfl⟩, -⟩ := h
    obtain ⟨-, -, m, -, rfl⟩ := Lazy.setErrors_eq_ok hl
    exact ⟨rfl, rfl, rfl⟩
  | read r =>
    simp only [run, run_bind_eq_ok] at h
    obtain ⟨_, _, -, ⟨rfl, rfl⟩, -⟩ := h
    exact ⟨rfl, rfl, rfl⟩
  | flush =>
    simp only [run, run_bind_eq_ok] at h
    obtain ⟨_, _, -, ⟨rfl, rfl⟩, -⟩ := h
    exact ⟨rfl, rfl, rfl⟩
  | setFill | setSaver | setAsync | addListener | removeListener | attach | goOn =>
    cases h
    exact ⟨rfl, rfl, rfl⟩

/-! ## Along a run -/

/-- What requests can do to the shape and the limits of a handle. -/
structure Grew (w w' : Writeable σ) : Prop where
  maxShape_eq : w'.maxShape = w.maxShape
  shape_le : List.Forall₂ (· ≤ ·) w.shape w'.shape
  shape_le_maxShape : List.Forall₂ (· ≤ ·) w'.shape w'.maxShape

namespace Grew

theorem refl (hw : Forall₂ (· ≤ ·) w.shape w.maxShape) : w.Grew w :=
  ⟨rfl, forall₂_same.mpr fun _ _ => le_rfl, hw⟩

theorem trans {w'' : Writeable σ} (h : w.Grew w') (h' : w'.Grew w'') : w.Grew w'' where
  maxShape_eq := h'.maxShape_eq.trans h.maxShape_eq
  shape_le := Shape.forall₂_le_trans h.shape_le h'.shape_le
  shape_le_maxShape := h'.shape_le_maxShape

/-- A write makes the dataset grow to the source of its region, or leaves it. -/
theorem write {call : Write} (hw : Forall₂ (· ≤ ·) w.shape w.maxShape)
    (h : (call.run w).run s = (.ok (w', calls), s')) : w.Grew w' := by
  obtain ⟨r, htarget, hcheck, -, -, ⟨-, rfl, -⟩ | ⟨-, rfl, -⟩⟩ := call.run_eq_ok h
  · exact .refl hw
  · have hle := call.source_le_maxShape hw htarget hcheck
    exact ⟨rfl, forall₂_of_checkRegion hw.length_eq.symm hcheck, hle⟩

theorem request {q : Request σ} (hw : Forall₂ (· ≤ ·) w.shape w.maxShape)
    (h : (q.run w).run s = (.ok (w', calls), s')) : w.Grew w' := by
  by_cases hq : ∀ call, q ≠ .write call
  · obtain ⟨hshape, hmax, -⟩ := q.run_eq_ok hq h
    refine ⟨hmax, ?_, ?_⟩
    · rw [hshape]
      exact forall₂_same.mpr fun _ _ => le_rfl
    · rwa [hshape, hmax]
  · rw [not_forall_not] at hq
    obtain ⟨call, rfl⟩ := hq
    exact write hw h

end Grew

/-! ## Steps on a stage -/

namespace Stage

variable {x : Stage σ}

/-- Takes over the handle and the calls that a step gives. If it fails only the saver may have
changed. -/
def enter (x : Stage σ) :
    Except Error (Writeable σ × List (String × Event)) × σ → Except Error Unit × Stage σ
  | (.ok (w, calls), s) => (.ok (), ⟨w, s, x.calls ++ calls⟩)
  | (.error e, s) => (.error e, { x with state := s })

theorem run_onState {α : Type} (step : Task σ α) (x : Stage σ) : (onState step).run x =
    ((step.run x.state).1, { x with state := (step.run x.state).2 }) := by
  rcases hrun : step.run x.state with ⟨out, s⟩
  simp only [onState, run_bind, run_get, andThen_ok, hrun, run_set, run_lift]

/-- A step that does not touch the stage comes before both sides. -/
theorem andThen_enter {α : Type} {y : Except Error α} {f : α → StageM σ Unit}
    {g : α → Task σ (Writeable σ × List (String × Event))}
    (h : ∀ a, (f a).run x = x.enter ((g a).run x.state)) :
    andThen (y, x) f = x.enter (andThen (y, x.state) g) := by
  cases y with
  | error e => rfl
  | ok a => exact h a

/-- **Whatever a write does to the handle and to listeners comes after all that can fail.** -/
theorem run_write (isAsync : Bool) (r : Region) (data : Block) (x : Stage σ) :
    (write isAsync r data).run x = x.enter ((x.handle.write isAsync r data).run x.state) := by
  simp only [write, Writeable.write, run_bind, run_get, andThen_ok]
  refine andThen_enter fun _ => ?_
  simp only [run_bind, run_get, andThen_ok]
  refine andThen_enter fun saver => ?_
  simp only [run_bind]
  refine andThen_enter fun size => ?_
  by_cases hsize : size = 0
  · simp only [hsize, ne_eq, not_true, if_false, if_true, run_pure, enter, append_nil]
  · simp only [hsize, ne_eq, not_false_eq_true, if_true, if_false, run_bind]
    refine andThen_enter fun dense => ?_
    rw [run_bind, run_bind, run_onState]
    rcases (Task.ofAction ("writing " ++ x.handle.name ++ r.text)
      (store saver isAsync r dense)).run x.state with ⟨e | ⟨⟩, s⟩
    · rfl
    · by_cases hshape : r.source = x.handle.shape
      · simp only [hshape, not_true]
        rfl
      · simp only [hshape, not_false_eq_true]
        rfl

theorem run_perform_write (call : Write) (x : Stage σ) :
    call.perform.run x = x.enter ((call.run x.handle).run x.state) := by
  cases call with
  | region isSync r hr data =>
    simp only [Write.perform, run_bind, run_get]
    exact run_write ..
  | arrays data start stop step =>
    simp only [Write.perform, Write.run, Stage.writeArrays, Writeable.writeArrays, run_bind,
      run_get, andThen_ok]
    refine andThen_enter fun slices => ?_
    rw [run_bind, run_bind, run_lift]
    exact andThen_enter fun r => run_write ..

end Stage

/-- A request as a step on a stage. -/
def Request.perform : Request σ → StageM σ Unit
  | write call => call.perform
  | q => fun x => x.enter ((q.run x.handle).run x.state)

theorem Request.run_perform (q : Request σ) (x : Stage σ) :
    q.perform.run x = x.enter ((q.run x.handle).run x.state) := by
  cases q with
  | write call => exact Stage.run_perform_write call x
  | _ => rfl

namespace Stage

variable {x : Stage σ}

/-- One more request, whether it goes through or fails. -/
def after (x : Stage σ) (q : Request σ) : Stage σ := (q.perform.run x).2

theorem after_of_ok {q : Request σ} (h : (q.run x.handle).run x.state = (.ok (w, calls), s)) :
    x.after q = ⟨w, s, x.calls ++ calls⟩ := by rw [after, Request.run_perform, h, enter]

theorem after_of_error {q : Request σ} {e : Error}
    (h : (q.run x.handle).run x.state = (.error e, s)) : x.after q = { x with state := s } := by
  rw [after, Request.run_perform, h, enter]

theorem grew_after (hx : Forall₂ (· ≤ ·) x.handle.shape x.handle.maxShape) (q : Request σ) :
    x.handle.Grew (x.after q).handle := by
  rcases h : (q.run x.handle).run x.state with ⟨e | ⟨w, calls⟩, s⟩
  · rw [after_of_error h]
    exact .refl hx
  · rw [after_of_ok h]
    exact .request hx h

theorem grew_foldl (hx : Forall₂ (· ≤ ·) x.handle.shape x.handle.maxShape)
    (qs : List (Request σ)) : x.handle.Grew (qs.foldl after x).handle := by
  induction qs generalizing x with
  | nil => exact .refl hx
  | cons q qs ih =>
    have hstep := grew_after hx q
    exact hstep.trans (ih hstep.shape_le_maxShape)

/-- A write that fails, or whose region is empty, leaves the handle and calls nobody. -/
theorem after_write_idle {call : Write} (h : (∃ e, (call.perform.run x).1 = .error e) ∨
      ∃ r, call.target x.handle = .ok r ∧ r.size = 0) :
    (x.after (.write call)).handle = x.handle ∧ (x.after (.write call)).calls = x.calls := by
  rw [run_perform_write] at h
  rcases hrun : (call.run x.handle).run x.state with ⟨e | ⟨w, calls⟩, s⟩
  · rw [@after_of_error _ _ _ (.write call) _ hrun]
    exact ⟨rfl, rfl⟩
  · rw [@after_of_ok _ _ _ _ _ (.write call) hrun]
    obtain ⟨r, htarget, -, -, -, ⟨-, rfl, rfl, -⟩ | ⟨hsize, -⟩⟩ := call.run_eq_ok hrun
    · exact ⟨rfl, append_nil _⟩
    · rcases h with ⟨e, h⟩ | ⟨r', h, hsize'⟩
      · rw [hrun] at h
        cases h
      · rw [htarget] at h
        cases h
        exact absurd hsize' hsize

/-- A write that goes through and stores something makes the shape that of its region's source, and
tells this to everyone who is registered. -/
theorem after_write_stored {call : Write} (htarget : call.target x.handle = .ok r)
    (hsize : r.size ≠ 0) (h : (call.perform.run x).1 = .ok ()) :
    (x.after (.write call)).handle =
        { x.handle with lazy := { x.handle.lazy with shape := r.source } } ∧
      (x.after (.write call)).calls =
        x.calls ++ x.handle.listeners.names.map fun name => (name, ⟨x.handle.name, r.source⟩) := by
  rw [run_perform_write] at h
  rcases hrun : (call.run x.handle).run x.state with ⟨e | ⟨w, calls⟩, s⟩
  · rw [hrun] at h
    cases h
  rw [@after_of_ok _ _ _ _ _ (.write call) hrun]
  obtain ⟨r', htarget', -, -, -, ⟨hsize', -⟩ | ⟨-, rfl, rfl, -⟩⟩ := call.run_eq_ok hrun
  · rw [htarget] at htarget'
    cases htarget'
    exact absurd hsize' hsize
  · rw [htarget] at htarget'
    cases htarget'
    exact ⟨rfl, rfl⟩

end Stage

/-- A writeable dataset of a shape as it is made, with a saver or without one. -/
inductive Made (s : Shape) : Writeable σ → Prop where
  | withoutSaver {k : Kind} {name : String} {n : Nat} {maxShape chunks : Option Shape}
      {w : Writeable σ} : withoutSaver k name n s maxShape chunks = .ok w → Made s w
  | ofSaver {saver : Saver σ} {k : Kind} {name : String} {n : Nat} {maxShape chunks : Option Shape}
      {state state' : σ} {w : Writeable σ} :
      (ofSaver saver k name n s maxShape chunks).run state = (.ok w, state') → Made s w

theorem shape_of_withoutSaver {k : Kind} {name : String} {n : Nat} {s : Shape}
    {maxShape chunks : Option Shape} (h : withoutSaver k name n s maxShape chunks = .ok w) :
    w.shape = s ∧ Forall₂ (· ≤ ·) w.shape w.maxShape := by
  simp only [withoutSaver, bind_eq_ok, pure_eq_ok] at h
  obtain ⟨⟨⟩, hcheck, rfl⟩ := h
  refine ⟨rfl, ?_⟩
  unfold checkShapes at hcheck
  split at hcheck
  · cases hcheck
  · next hallows => exact forall₂_of_allows (not_not.mp hallows)

theorem Made.limited {s : Shape} (h : w.Made s) :
    w.shape = s ∧ Forall₂ (· ≤ ·) w.shape w.maxShape := by
  cases h with
  | withoutSaver h => exact shape_of_withoutSaver h
  | ofSaver h =>
    simp only [Writeable.ofSaver, run_bind_eq_ok, run_lift_eq_ok] at h
    obtain ⟨w₀, _, ⟨hw₀, rfl⟩, h⟩ := h
    have hlimited := shape_of_withoutSaver hw₀
    cases h
    exact hlimited

/-- **A writeable dataset grows within its limits, whatever its saver does.** After any requests it
has its rank and its maximum shape, which no axis exceeds, and no axis gets shorter. A write that
fails, or goes to an empty region, leaves the handle and calls no listener. Any other one takes over
the shape of the region's source and calls every listener once, with the name and this shape. -/
theorem Stage.grows_within_limits {s : Shape} (hw : w.Made s) (state : σ)
    (requests : List (Request σ)) :
    let x := requests.foldl after ⟨w, state, []⟩
    x.handle.shape.length = s.length ∧ x.handle.maxShape = w.maxShape ∧
      List.Forall₂ (· ≤ ·) x.handle.shape x.handle.maxShape ∧
      (∀ more : List (Request σ),
        List.Forall₂ (· ≤ ·) x.handle.shape (more.foldl after x).handle.shape) ∧
      ∀ call : Write,
        ((∃ e, (call.perform.run x).1 = .error e) ∨
            (∃ r, call.target x.handle = .ok r ∧ r.size = 0) →
          (x.after (.write call)).handle = x.handle ∧
            (x.after (.write call)).calls = x.calls) ∧
        ∀ r, call.target x.handle = .ok r → r.size ≠ 0 → (call.perform.run x).1 = .ok () →
          (x.after (.write call)).handle =
              { x.handle with lazy := { x.handle.lazy with shape := r.source } } ∧
            (x.after (.write call)).calls = x.calls ++
              x.handle.listeners.names.map fun name => (name, ⟨x.handle.name, r.source⟩) := by
  intro x
  obtain ⟨rfl, hlimited⟩ := hw.limited
  have hgrew : w.Grew x.handle := @grew_foldl _ ⟨w, state, []⟩ hlimited requests
  refine ⟨hgrew.shape_le.length_eq.symm, hgrew.maxShape_eq, hgrew.shape_le_maxShape, ?_, ?_⟩
  · intro more
    exact (grew_foldl hgrew.shape_le_maxShape more).shape_le
  · intro call
    exact ⟨after_write_idle, fun r htarget hsize hrun => after_write_stored htarget hsize hrun⟩

/-- A saver that counts the writes it is asked for, and refuses every other one. -/
def everyOther : Saver Nat where
  isReadable _ := true
  read _ n := (.error .readRefused, n)
  isWriteable _ := true
  write _ _ n := (if n % 2 = 0 then .ok () else .error .diskFull, n + 1)
  setFill _ n := n
  background := none

/-- Writes a number to the end of a list and makes it one longer than `length`. -/
def appendNumber (length : Nat) (h : length + 1 < Word.modulus) : Write :=
  .region false ⟨[length + 1], some [unlimited], [⟨length, length + 1, 1, 1⟩], true, .none⟩
    (by simpa using h) (Dataset.ofList (.int true .w32) [1] 1 [.int 7])

/-- Two listeners register, one of them twice, and a first number is appended. -/
def appendRequests : List (Request Nat) :=
  [.addListener "log", .addListener "view", .addListener "log",
    .write (appendNumber 2 (by decide))]

theorem Stage.grows_within_limits_every_other : ∃ w : Writeable Nat, w.Made [2] ∧
    let x := appendRequests.foldl after ⟨w, 0, []⟩
    let call := appendNumber 3 (by decide)
    let y := x.after (.write call)
    x.handle.shape = [3] ∧ x.calls = ["log", "view", "log"].map (·, ⟨"numbers", [3]⟩) ∧
      List.Forall₂ (· ≤ ·) x.handle.shape x.handle.maxShape ∧
      (∃ e, (call.perform.run x).1 = .error e) ∧
      y.handle = x.handle ∧ y.calls = x.calls ∧ y.state = 2 ∧
      (call.perform.run y).1 = .ok () ∧
      (y.after (.write call)).handle.shape = [4] ∧
      (y.after (.write call)).calls =
        y.calls ++ ["log", "view", "log"].map (·, ⟨"numbers", [4]⟩) := by
  obtain ⟨w, hw⟩ : ∃ w : Writeable Nat, (ofSaver everyOther (.int true .w32) "numbers" 1 [2]
      (some [unlimited]) none).run 0 = (.ok w, 0) := ⟨_, rfl⟩
  have hmade : w.Made [2] := .ofSaver hw
  cases hw
  obtain ⟨-, -, hle, -, hx⟩ := grows_within_limits hmade 0 appendRequests
  obtain ⟨-, -, -, -, hy⟩ := grows_within_limits hmade 0
    (appendRequests ++ [.write (appendNumber 3 (by decide))])
  obtain ⟨hidle, hcalls⟩ := (hx (appendNumber 3 (by decide))).1 (.inl ⟨_, rfl⟩)
  obtain ⟨hstored, hcalls'⟩ := (hy (appendNumber 3 (by decide))).2 _ rfl (by decide) rfl
  exact ⟨_, hmade, rfl, rfl, hle, ⟨_, rfl⟩, hidle, hcalls, rfl, rfl,
    congrArg shape hstored, hcalls'⟩

end Writeable

end Hyperslab
