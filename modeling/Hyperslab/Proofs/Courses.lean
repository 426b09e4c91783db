import Hyperslab.InWords
import Hyperslab.Proofs.ViewSafety
import Hyperslab.Proofs.Writes

/-!
# Courses of a store

Datasets are made, derived from each other, written to and summarized, in any order and through any
of them. A write changes the buffer of the dataset that it goes to and no other; it keeps the length
of that buffer, and the buffer counts it. A course is any such sequence of steps. What is to be
known of the datasets on the way is noted beside each of them.
-/
namespace Hyperslab

open List

variable {h : Handle} {s : Store}

/-! ## What constructors make -/

namespace Dataset

variable {d : Block}

theorem ofElements_eq_packed {k : Kind} {n : Nat} {s : Shape} {l : List Scalar}
    (h : ofElements k n s l = .ok d) :
    d = ofField { Frame.packed k "" s n with buffer := l.toArray } .empty ∧
      s.size * n ≤ maxElements := by
  simp only [ofElements, bind_eq_ok] at h
  obtain ⟨-, -, m, hm, h⟩ := h
  obtain ⟨rfl, hmax⟩ := elementCount_eq_ok hm
  split at h
  · simp at h
  · simp only [pure_eq_ok] at h
    exact ⟨h.symm, hmax⟩

theorem fullOf_eq_packed {k : Kind} {n : Nat} {s : Shape} {v : Scalar}
    (h : fullOf k n s v = .ok d) :
    ∃ e, d = ofField { Frame.packed k "" s n with buffer := e } .empty ∧
      s.size * n ≤ maxElements := by
  simp only [fullOf, bind_eq_ok, pure_eq_ok] at h
  obtain ⟨m, hm, rfl⟩ := h
  obtain ⟨rfl, hmax⟩ := elementCount_eq_ok (reserve_eq_ok hm)
  exact ⟨_, rfl, hmax⟩

/-- Every constructor packs elements into a buffer and attaches nothing. All but one ask whether a
buffer may have so many elements. -/
theorem Made.eq_packed_or_range (h : d.Made) :
    (∃ k s n e, d = ofField { Frame.packed k "" s n with buffer := e } .empty ∧
      s.size * n ≤ maxElements) ∨ ∃ n, Word.listLength n = .ok n ∧ d = Dataset.range n := by
  cases h with
  | @zeros k n s _ h =>
    simp only [Dataset.zeros, bind_eq_ok] at h
    obtain ⟨-, -, h⟩ := h
    exact .inl ⟨k, s, n, fullOf_eq_packed h⟩
  | @full k s v _ h => exact .inl ⟨k, s, 1, fullOf_eq_packed h⟩
  | @ofElements k n s l _ h => exact .inl ⟨k, s, n, _, ofElements_eq_packed h⟩
  | @ofFn k s f _ h =>
    simp only [Dataset.ofFn, bind_eq_ok, pure_eq_ok] at h
    obtain ⟨m, hm, rfl⟩ := h
    obtain ⟨rfl, hmax⟩ := elementCount_eq_ok (reserve_eq_ok hm)
    exact .inl ⟨k, s, 1, _, rfl, hmax⟩
  | @ofComplex s l _ h =>
    simp only [Dataset.ofComplex, bind_eq_ok] at h
    obtain ⟨m, -, h⟩ := h
    split at h
    · simp at h
    · exact .inl ⟨_, s, 2, _, ofElements_eq_packed h⟩
  | @range n hn => exact .inr ⟨n, hn, rfl⟩

theorem Made.eq_packed (h : d.Made) : ∃ k s n e,
    d = ofField { Frame.packed k "" s n with buffer := e } .empty ∧
      Kind.double.bytes * (s.size * n) < Word.half := by
  rcases h.eq_packed_or_range with ⟨k, s, n, e, hd, hmax⟩ | ⟨n, hn, rfl⟩
  · exact ⟨k, s, n, e, hd, bytes_mul_lt hmax⟩
  · exact ⟨_, _, _, _, rfl, (Made.range hn).sound.listable⟩

theorem Made.separate (h : d.Made) : d.geometry.Separate := by
  have hsound := h.sound
  obtain ⟨k, s, n, e, rfl, -⟩ := h.eq_packed
  exact Frame.separate_packed hsound.itemSize_pos hsound.listable

end Dataset

/-! ## What a write makes of a block -/

namespace Dataset

variable {v : Scalar} {w : Written Buffer}

/-- What writes can make of a dataset: the buffer keeps its length and has counted them, unless
nothing was written. A summary that still counts as clean was there before. -/
structure Rewrites (d e : Block) : Prop where
  size_eq : e.buffer.size = d.buffer.size
  counted : e.buffer = d.buffer ∨ d.buffer.generation < e.buffer.generation
  clean : ∀ st ∈ e.metadata.statistics, st.isDirty = false → st ∈ d.metadata.statistics

namespace Rewrites

variable {d e f : Block}

theorem refl (d : Block) : d.Rewrites d := ⟨rfl, .inl rfl, fun _ hst _ => hst⟩

theorem trans (h : d.Rewrites e) (h' : e.Rewrites f) : d.Rewrites f where
  size_eq := h'.size_eq.trans h.size_eq
  counted := by
    rcases h.counted with he | he <;> rcases h'.counted with hf | hf
    · exact .inl (hf.trans he)
    · exact .inr (he ▸ hf)
    · exact .inr (hf ▸ he)
    · exact .inr (he.trans hf)
  clean st hst hclean := h.clean st (h'.clean st hst hclean) hclean

end Rewrites

theorem isDirty_of_onDirty {m : Metadata} {st : Statistics} (h : st ∈ m.onDirty.statistics) :
    st.isDirty := by
  obtain ⟨_, -, rfl⟩ := mem_map.mp h
  rfl

variable {d : Block} {f : Elements → Elements}

theorem rewrites_modifyElements (hf : ∀ e, (f e).size = e.size) :
    d.Rewrites (d.modifyElements f) where
  size_eq := hf _
  counted := .inr (Nat.lt_succ_self _)
  clean st hst hclean := by simp [isDirty_of_onDirty hst] at hclean

theorem rewrites_afterWrite (hf : ∀ e, (f e).size = e.size) (stop : Option Fault) :
    d.Rewrites (d.afterWrite f stop).dataset := by
  cases stop with
  | none => exact rewrites_modifyElements hf
  | some fault => exact ⟨hf _, .inr (Nat.lt_succ_self _), fun _ hst _ => hst⟩

theorem rewrites_writeAt (d : Block) (i : Nat) (item : List Scalar) :
    d.Rewrites (d.writeAt i item).dataset := by
  unfold writeAt
  split
  · exact rewrites_afterWrite (fun e => e.size_putFrom i item) none
  · exact rewrites_afterWrite (fun _ => rfl) _

theorem rewrites_fillAt (d : Block) (g : Geometry) (v : Scalar) :
    d.Rewrites (d.fillAt g v).dataset :=
  rewrites_afterWrite (fun e => e.size_putItems _) _

theorem rewrites_writeElement {pos : Position}
    (hw : d.writeElement pos v = .ok w) : d.Rewrites w.dataset := by
  simp only [writeElement, bind_eq_ok, pure_eq_ok] at hw
  obtain ⟨i, -, rfl⟩ := hw
  exact rewrites_writeAt d i [v]

theorem rewrites_writeItem {pos : Position} {item : List Scalar}
    (hw : d.writeItem pos item = .ok w) : d.Rewrites w.dataset := by
  unfold writeItem at hw
  split at hw
  · simp at hw
  · simp only [bind_eq_ok, pure_eq_ok] at hw
    obtain ⟨i, -, rfl⟩ := hw
    exact rewrites_writeAt d i item

theorem rewrites_writeFillSlice {r : Region}
    (hw : d.writeFillSlice r v = .ok w) : d.Rewrites w.dataset := by
  simp only [writeFillSlice, bind_eq_ok, pure_eq_ok] at hw
  obtain ⟨-, -, rfl⟩ := hw
  exact rewrites_fillAt d _ v

theorem rewrites_writeSlice {r : Region} {data : Block}
    (hw : d.writeSlice r data = .ok w) : d.Rewrites w.dataset := by
  simp only [writeSlice, bind_eq_ok, pure_eq_ok] at hw
  obtain ⟨items, -, rfl⟩ := hw
  exact rewrites_afterWrite (fun e => by simp only [Elements.size_putItems]) _

theorem rewrites_scatter {items : Array (List Scalar)} {k : Nat} {ranks : List Nat}
    (hw : scatter items k ranks d = .ok w) : d.Rewrites w.dataset := by
  induction ranks generalizing k d with
  | nil =>
    simp only [scatter, Except.ok.injEq] at hw
    subst hw
    exact .refl d
  | cons i rest ih =>
    simp only [scatter, bind_eq_ok] at hw
    obtain ⟨w', hw', hw⟩ := hw
    have hfirst := rewrites_writeItem hw'
    split at hw
    · simp only [pure_eq_ok] at hw
      exact hw ▸ hfirst
    · exact hfirst.trans (ih hw)

theorem rewrites_writePut {ranks : List Nat} {values : Block}
    (hw : d.writePut ranks values = .ok w) : d.Rewrites w.dataset := by
  unfold writePut at hw
  split at hw
  · simp at hw
  · split at hw
    · simp at hw
    split at hw
    · split at hw
      · simp only [pure_eq_ok] at hw
        subst hw
        exact .refl d
      · simp at hw
    · simp only [bind_eq_ok] at hw
      obtain ⟨-, -, hw⟩ := hw
      exact rewrites_scatter hw

theorem rewrites_setAbs {i : Nat} {e : Block} (he : d.setAbs i v = .ok e) : d.Rewrites e := by
  unfold setAbs at he
  split at he
  · simp only [Except.ok.injEq] at he
    subst he
    exact rewrites_modifyElements fun e => Array.size_setIfInBounds
  · simp at he

theorem rewrites_applyInPlace {op : BinaryOp} {other e : Block}
    (he : applyInPlace op d other = .ok e) : d.Rewrites e := by
  simp only [applyInPlace, bind_eq_ok, pure_eq_ok] at he
  obtain ⟨-, -, values, -, rfl⟩ := he
  refine rewrites_modifyElements fun elements => ?_
  induction values generalizing elements with
  | nil => rfl
  | cons p values ih => rw [foldl_cons, ih, Array.size_setIfInBounds]

end Dataset

open Dataset

/-! ## Writing in a store -/

theorem Store.buffer_setBuffer (s : Store) (id i : BufferId) (b : Buffer) :
    (s.setBuffer id b).buffer i = if i = id ∧ id < s.buffers.size then b else s.buffer i := by
  unfold buffer setBuffer
  by_cases hi : i = id
  · subst hi
    by_cases hlt : i < s.buffers.size
    · simp [hlt]
    · simp [hlt]
  · simp [hi, Ne.symm hi]

/-- What writes to a dataset. -/
inductive WriteOp where
  | set (pos : Position) (value : Scalar)
  | setItem (pos : Position) (item : List Scalar)
  | setAbs (i : Nat) (value : Scalar)
  | fill (value : Scalar)
  | fillSlice (r : Region) (value : Scalar)
  | setSlice (r : Region) (data : Handle)
  | applyInPlace (op : BinaryOp) (other : Handle)
  | put (ranks : List Nat) (values : Handle)

/-- The write, which may be refused or stopped on its way. -/
def WriteOp.run (h : Handle) : WriteOp → StoreM (Written BufferId)
  | set pos value => h.set pos value
  | setItem pos item => h.setItem pos item
  | setAbs i value => h.setAbs i value
  | fill value => h.fill value
  | fillSlice r value => h.fillSlice r value
  | setSlice r data => h.setSlice r data
  | applyInPlace op other => h.applyInPlace op other
  | put ranks values => h.put ranks values

/-- What a write to `h` in the store `s` can come to: a refusal, which the buffer may have counted,
or another buffer in the place of the dataset's own. -/
inductive Handle.Wrote (h : Handle) (s : Store) :
    Except Error (Written BufferId) × Store → Prop where
  | refused (e : Error) : Wrote h s (.error e, s)
  | counted (e : Error) :
      Wrote h s (.error e, s.setBuffer h.buffer (s.buffer h.buffer).touched)
  | written {d : Block} (stop : Option Fault) : (s.read h).Rewrites d →
      Wrote h s (.ok ⟨{ h with metadata := d.metadata }, stop⟩, s.setBuffer h.buffer d.buffer)

namespace Handle

variable {h : Handle} {s : Store}

theorem run_write (f : Block → Except Error (Written Buffer)) :
    (h.write f).run s = match f (s.read h) with
      | .ok w => (.ok ⟨{ h with metadata := w.dataset.metadata }, w.stop⟩,
          s.setBuffer h.buffer w.dataset.buffer)
      | .error e => (.error e, s) := by
  simp only [write, run_bind, run_peek, andThen_ok]
  cases f (s.read h) with
  | error e => rfl
  | ok w => rfl

theorem wrote_write {f : Block → Except Error (Written Buffer)}
    (hf : ∀ w, f (s.read h) = .ok w → (s.read h).Rewrites w.dataset) :
    h.Wrote s ((h.write f).run s) := by
  rw [run_write]
  cases hw : f (s.read h) with
  | error e => exact .refused e
  | ok w => exact .written w.stop (hf w hw)

theorem wrote_update {f : Block → Except Error Block}
    (hf : ∀ d, f (s.read h) = .ok d → (s.read h).Rewrites d) : h.Wrote s ((h.update f).run s) := by
  refine wrote_write fun w hw => ?_
  simp only [bind_eq_ok, pure_eq_ok] at hw
  obtain ⟨d, hd, rfl⟩ := hw
  exact hf d hd

/-- An element past the end is refused only after the buffer has counted the write. -/
theorem wrote_setAbs (i : Nat) (v : Scalar) : h.Wrote s ((h.setAbs i v).run s) := by
  simp only [setAbs, run_bind, run_peek, andThen_ok]
  by_cases hi : (s.read h).buffer.size ≤ i
  · rw [if_pos hi]
    let s' := s.setBuffer h.buffer (s.buffer h.buffer).touched
    have hsize : (s'.read h).buffer.size ≤ i := by
      refine le_of_eq_of_le ?_ hi
      simp only [s', Store.read, Store.buffer_setBuffer]
      split <;> rfl
    have hrefused : (h.update (·.setAbs i v)).run s' =
        (.error (.outOfBounds [i] [(s'.read h).buffer.size]), s') := by
      rw [update, run_write, Dataset.setAbs, if_neg (Nat.not_lt.mpr hsize)]
      rfl
    change h.Wrote s ((h.update (·.setAbs i v)).run s')
    rw [hrefused]
    exact .counted _
  · rw [if_neg hi]
    exact wrote_update fun d hd => rewrites_setAbs hd

theorem run_beside (h other : Handle) (s : Store) : ∃ out, (h.beside other).run s = (out, s) := by
  unfold beside
  split
  · simp only [read, run_bind, run_peek, andThen_ok]
    cases (s.read h).checkRead with
    | error e => exact ⟨_, rfl⟩
    | ok u => exact ⟨_, rfl⟩
  · exact ⟨_, rfl⟩

end Handle

theorem WriteOp.wrote (op : WriteOp) (h : Handle) (s : Store) : h.Wrote s ((op.run h).run s) := by
  cases op with
  | set pos value => exact Handle.wrote_write fun _ hw => rewrites_writeElement hw
  | setItem pos item => exact Handle.wrote_write fun _ hw => rewrites_writeItem hw
  | setAbs i value => exact Handle.wrote_setAbs i value
  | fill value =>
    refine Handle.wrote_write fun w hw => ?_
    rw [← Except.ok.inj hw]
    exact rewrites_fillAt (s.read h) _ value
  | fillSlice r value => exact Handle.wrote_write fun _ hw => rewrites_writeFillSlice hw
  | setSlice r data =>
    simp only [run, Handle.setSlice, run_bind, Handle.run_peek]
    exact Handle.wrote_write fun _ hw => rewrites_writeSlice hw
  | put ranks values =>
    simp only [run, Handle.put, run_bind, Handle.run_peek]
    exact Handle.wrote_write fun _ hw => rewrites_writePut hw
  | applyInPlace op other =>
    obtain ⟨out, hout⟩ := Handle.run_beside other h s
    simp only [run, Handle.applyInPlace, run_bind, hout]
    cases out with
    | error e => exact .refused e
    | ok d => exact Handle.wrote_update fun _ he => rewrites_applyInPlace he

/-! ## Summarizing -/

/-- The first summary that a dataset holds is current. -/
def Handle.hasCurrent (h : Handle) (s : Store) : Bool :=
  h.metadata.statistics.head?.any (·.isCurrent (s.generation h))

/-- What a summary of `h` in the store `s` can come to: the one that it holds, if that is current,
or else a new one, which it then holds. -/
inductive Handle.Summarizes (h : Handle) (s : Store) : Statistics → Handle → Prop where
  | kept {st : Statistics} : h.metadata.statistics.head? = some st →
      st.isCurrent (s.generation h) = true → Summarizes h s st h
  | computed {st : Statistics} : h.hasCurrent s = false →
      st = .compute (s.read h).toList (s.generation h) →
      Summarizes h s st { h with metadata := { h.metadata with statistics := [st] } }

theorem Handle.run_statisticsInWords_of_current (hcurrent : h.hasCurrent s = true) :
    ∃ st, h.statisticsInWords.run s = (.ok (st, h), s) ∧ h.Summarizes s st h := by
  cases hhead : h.metadata.statistics.head? with
  | none => simp [hasCurrent, hhead] at hcurrent
  | some st =>
    have hcurrent : st.isCurrent (s.generation h) = true := by
      simpa [hasCurrent, hhead] using hcurrent
    refine ⟨st, ?_, .kept hhead hcurrent⟩
    simp only [statisticsInWords, hhead, isCurrent, run_bind, run_get, andThen_ok, hcurrent, if_true,
      run_pure]

theorem Handle.Held.run_readInWords (hh : h.Held s) :
    h.readInWords.run s = (do h.checkWalk; return s.read h, s) := by
  have hread : (s.read h).checkRead = .ok () := check_eq_ok.mpr hh.sound.fault_eq_none
  simp only [readInWords, run_bind, run_lift]
  cases h.checkWalk with
  | error err => rfl
  | ok u =>
    simp only [read, run_bind, run_peek, andThen_ok, run_lift, hread, run_pure]
    rfl

/-- A dataset that holds no current summary is read. -/
theorem Handle.Held.run_statisticsInWords (hh : h.Held s) (hcurrent : h.hasCurrent s = false) :
    h.statisticsInWords.run s = (do
      h.checkWalk
      let st := Statistics.compute (s.read h).toList (s.generation h)
      return (st, { h with metadata := { h.metadata with statistics := [st] } }), s) := by
  cases hhead : h.metadata.statistics.head? with
  | none =>
    simp only [statisticsInWords, hhead, run_bind, hh.run_readInWords]
    cases h.checkWalk <;> rfl
  | some st =>
    have hold : st.isCurrent (s.generation h) = false := by
      simpa [hasCurrent, hhead] using hcurrent
    simp only [statisticsInWords, hhead, isCurrent, run_bind, run_get, andThen_ok, run_pure, hold,
      Bool.false_eq_true, if_false, hh.run_readInWords]
    cases h.checkWalk <;> rfl

theorem Handle.Held.summarizes_of_run {v : Handle} {s' : Store} {st : Statistics} (hh : h.Held s)
    (hrun : h.statisticsInWords.run s = (.ok (st, v), s')) : s' = s ∧ h.Summarizes s st v := by
  cases hcurrent : h.hasCurrent s with
  | true =>
    obtain ⟨st', hrun', hsummarizes⟩ := run_statisticsInWords_of_current hcurrent
    cases hrun'.symm.trans hrun
    exact ⟨rfl, hsummarizes⟩
  | false =>
    rw [hh.run_statisticsInWords hcurrent, Prod.mk.injEq] at hrun
    simp only [bind_eq_ok, pure_eq_ok, Prod.mk.injEq] at hrun
    obtain ⟨⟨-, -, rfl, rfl⟩, rfl⟩ := hrun
    exact ⟨rfl, .computed hcurrent rfl⟩

theorem Handle.Held.exists_summary (hh : h.Held s)
    (hgoes : h.hasCurrent s = true ∨ h.checkWalk = .ok ()) :
    ∃ st v, h.statisticsInWords.run s = (.ok (st, v), s) ∧ h.Summarizes s st v := by
  cases hcurrent : h.hasCurrent s with
  | true =>
    obtain ⟨st, hrun, hsummarizes⟩ := run_statisticsInWords_of_current hcurrent
    exact ⟨st, h, hrun, hsummarizes⟩
  | false =>
    have hwalk : h.checkWalk = .ok () := hgoes.resolve_left (by simp [hcurrent])
    refine ⟨_, _, ?_, .computed hcurrent rfl⟩
    rw [hh.run_statisticsInWords hcurrent, hwalk]
    rfl

theorem Handle.Summarizes.held {v : Handle} {st : Statistics}
    (hv : h.Summarizes s st v) (hh : h.Held s) : v.Held s := by
  cases hv with
  | kept => exact hh
  | computed => exact ⟨hh.buffer_lt, hh.sound⟩

/-! ## The order of stores -/

namespace Store

/-- The store `s'` comes after `s`: the buffers of `s` are there with the same length, and those
that are not the same have counted writes. -/
structure Later (s' s : Store) : Prop where
  buffers_le : s.buffers.size ≤ s'.buffers.size
  size_eq : ∀ id < s.buffers.size, (s'.buffer id).size = (s.buffer id).size
  counted : ∀ id < s.buffers.size, s'.buffer id = s.buffer id ∨
    (s.buffer id).generation < (s'.buffer id).generation

variable {s : Store}

theorem Later.refl (s : Store) : s.Later s := ⟨le_rfl, fun _ _ => rfl, fun _ _ => .inl rfl⟩

theorem later_push (s : Store) (b : Buffer) : (⟨s.buffers.push b⟩ : Store).Later s where
  buffers_le := by simp
  size_eq id hid := by rw [buffer_push hid]
  counted id hid := .inl (buffer_push hid b)

theorem later_setBuffer {id : BufferId} {b : Buffer} (hsize : b.size = (s.buffer id).size)
    (hcounted : b = s.buffer id ∨ (s.buffer id).generation < b.generation) :
    (s.setBuffer id b).Later s where
  buffers_le := by simp [setBuffer]
  size_eq i hi := by
    rw [buffer_setBuffer]
    split
    · rename_i h
      rw [h.1, hsize]
    · rfl
  counted i hi := by
    rw [buffer_setBuffer]
    split
    · rename_i h
      rw [h.1]
      exact hcounted
    · exact .inl rfl

end Store

namespace Handle

variable {h u : Handle} {s s' : Store}

theorem Held.later (hu : u.Held s) (hs : s'.Later s) : u.Held s' :=
  ⟨hu.buffer_lt.trans_le hs.buffers_le, hs.size_eq _ hu.buffer_lt ▸ hu.sound⟩

theorem Wrote.later {out : Except Error (Written BufferId)} (hout : h.Wrote s (out, s')) :
    s'.Later s := by
  cases hout with
  | refused e => exact .refl s
  | counted e => exact Store.later_setBuffer rfl (.inr (Nat.lt_succ_self _))
  | written stop hd => exact Store.later_setBuffer hd.size_eq hd.counted

theorem Wrote.held {w : Written BufferId} (hh : h.Held s) (hout : h.Wrote s (.ok w, s')) :
    Handle.Held w.dataset s' := by
  have hlater := hh.later hout.later
  cases hout with
  | written stop hd => exact ⟨hlater.buffer_lt, hlater.sound⟩

theorem Yields.later {out : Except Error Handle} (hout : h.Yields s (out, s')) : s'.Later s := by
  cases hout with
  | refused e => exact .refl s
  | shared hv => exact .refl s
  | owned hv => exact Store.later_push s _

theorem Yields.held {v : Handle} (hh : h.Held s) (hout : h.Yields s (.ok v, s')) : v.Held s' := by
  cases hout with
  | shared hv => exact ⟨hv.buffer_eq ▸ hh.buffer_lt, hv.buffer_eq ▸ hv.sound⟩
  | owned hv => exact held_of_over_push hv

end Handle

/-! ## Courses -/

/-- What is noted beside each dataset of a course: when it is made, derived from one that has a note
already, written to, or summarized. -/
structure Notes (α : Type) where
  made : Handle → α
  derived : Store → Handle × α → ViewOp → Handle → α
  written : Handle × α → Handle → α
  summarized : Store → Handle × α → Handle → α

/-- Nothing is noted. -/
def Notes.none : Notes Unit := ⟨fun _ => (), fun _ _ _ _ => (), fun _ _ => (), fun _ _ _ => ()⟩

variable {α : Type}

/-- The stores and datasets, with their notes, that any sequence of steps leads to. A step may be
refused. A dataset that is written to or summarized is listed again, as it is then. -/
inductive Course (n : Notes α) : Store → List (Handle × α) → Prop where
  | start : Course n .empty []
  | make {s : Store} {es : List (Handle × α)} {d : Block} : Course n s es → d.Made →
      Course n (s.adopt d).2 (((s.adopt d).1, n.made (s.adopt d).1) :: es)
  | derive {s s' : Store} {es : List (Handle × α)} {e : Handle × α} {v : Handle} (op : ViewOp) :
      Course n s es → e ∈ es → (op.run e.1).run s = (.ok v, s') →
      Course n s' ((v, n.derived s e op v) :: es)
  | write {s s' : Store} {es : List (Handle × α)} {e : Handle × α} {w : Written BufferId}
      (op : WriteOp) : Course n s es → e ∈ es → (op.run e.1).run s = (.ok w, s') →
      Course n s' ((w.dataset, n.written e w.dataset) :: es)
  | summarize {s s' : Store} {es : List (Handle × α)} {e : Handle × α} {st : Statistics}
      {v : Handle} : Course n s es → e ∈ es →
      e.1.statisticsInWords.run s = (.ok (st, v), s') → Course n s' ((v, n.summarized s e v) :: es)
  | refuseDerive {s s' : Store} {es : List (Handle × α)} {e : Handle × α} {err : Error}
      (op : ViewOp) : Course n s es → e ∈ es → (op.run e.1).run s = (.error err, s') →
      Course n s' es
  | refuseWrite {s s' : Store} {es : List (Handle × α)} {e : Handle × α} {err : Error}
      (op : WriteOp) : Course n s es → e ∈ es → (op.run e.1).run s = (.error err, s') →
      Course n s' es

/-- Every step keeps a property of the datasets that are held. -/
structure Notes.Keeps (n : Notes α) (P : Store → Handle × α → Prop) : Prop where
  later : ∀ {s s' : Store} {e : Handle × α}, e.1.Held s → s'.Later s → P s e → P s' e
  make : ∀ {s : Store} {d : Block}, d.Made →
    P (s.adopt d).2 ((s.adopt d).1, n.made (s.adopt d).1)
  derive : ∀ {s s' : Store} {e : Handle × α} {op : ViewOp} {v : Handle}, e.1.Held s → P s e →
    (op.run e.1).run s = (.ok v, s') → P s' (v, n.derived s e op v)
  write : ∀ {s s' : Store} {e : Handle × α} {w : Written BufferId}, e.1.Held s → P s e →
    e.1.Wrote s (.ok w, s') → P s' (w.dataset, n.written e w.dataset)
  summarize : ∀ {s : Store} {e : Handle × α} {st : Statistics} {v : Handle}, e.1.Held s → P s e →
    e.1.Summarizes s st v → P s (v, n.summarized s e v)

namespace Course

variable {n : Notes α} {s : Store} {es : List (Handle × α)}

/-- **What every step keeps holds of every dataset of a course**, and each of them is over a buffer
of the store. -/
theorem held_and_keeps {P : Store → Handle × α → Prop} (hcourse : Course n s es)
    (hP : n.Keeps P) : ∀ e ∈ es, e.1.Held s ∧ P s e := by
  -- A step adds at most one dataset; those that are there see a later store.
  have later {s s' : Store} {es : List (Handle × α)} (ih : ∀ e ∈ es, e.1.Held s ∧ P s e)
      (hs : s'.Later s) : ∀ e ∈ es, e.1.Held s' ∧ P s' e := fun e he =>
    ⟨(ih e he).1.later hs, hP.later (ih e he).1 hs (ih e he).2⟩
  induction hcourse with
  | start => simp
  | @make s es d _ hmade ih =>
    refine forall_mem_cons.mpr ⟨⟨?_, hP.make hmade⟩, later ih (s.later_push d.buffer)⟩
    exact Handle.held_of_over_push ⟨rfl, hmade.sound⟩
  | @derive s s' es e v op _ he hrun ih =>
    obtain ⟨hheld, hPe⟩ := ih e he
    have hyields := hheld.yields op
    rw [hrun] at hyields
    exact forall_mem_cons.mpr
      ⟨⟨hyields.held hheld, hP.derive hheld hPe hrun⟩, later ih hyields.later⟩
  | @write s s' es e w op _ he hrun ih =>
    obtain ⟨hheld, hPe⟩ := ih e he
    have hwrote := op.wrote e.1 s
    rw [hrun] at hwrote
    exact forall_mem_cons.mpr
      ⟨⟨hwrote.held hheld, hP.write hheld hPe hwrote⟩, later ih hwrote.later⟩
  | @summarize s s' es e st v _ he hrun ih =>
    obtain ⟨hheld, hPe⟩ := ih e he
    obtain ⟨rfl, hsummarizes⟩ := hheld.summarizes_of_run hrun
    exact forall_mem_cons.mpr ⟨⟨hsummarizes.held hheld, hP.summarize hheld hPe hsummarizes⟩, ih⟩
  | @refuseDerive s s' es e err op _ he hrun ih =>
    have hyields := (ih e he).1.yields op
    rw [hrun] at hyields
    exact later ih hyields.later
  | @refuseWrite s s' es e err op _ he hrun ih =>
    have hwrote := op.wrote e.1 s
    rw [hrun] at hwrote
    exact later ih hwrote.later

theorem held (hcourse : Course n s es) : ∀ e ∈ es, e.1.Held s := fun e he =>
  (hcourse.held_and_keeps (P := fun _ _ => True) (by constructor <;> intros <;> trivial) e he).1

end Course

end Hyperslab
