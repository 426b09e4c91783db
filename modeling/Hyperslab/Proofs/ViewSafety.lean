import Hyperslab.Proofs.Contents
import Hyperslab.Proofs.Odometer
import Hyperslab.Store

/-!
# Views never leave their buffer

Datasets are made with a packed buffer and derived from each other. A derived dataset either looks
at the buffer of the one it comes from or has a new buffer; no buffer ever changes its length. So
every dataset that can be reached has all of its items in its buffer, and what reads or writes it
item by item stays there.
-/
namespace Hyperslab

open Dataset List

/-! ## Making -/

/-- Datasets as constructors make them. -/
inductive Dataset.Made : Block → Prop where
  | zeros {k : Kind} {n : Nat} {s : Shape} {d : Block} : zeros k n s = .ok d → Made d
  | full {k : Kind} {s : Shape} {v : Scalar} {d : Block} : full k s v = .ok d → Made d
  | ofElements {k : Kind} {n : Nat} {s : Shape} {l : List Scalar} {d : Block} :
      ofElements k n s l = .ok d → Made d
  | ofFn {k : Kind} {s : Shape} {f : Position → Scalar} {d : Block} : ofFn k s f = .ok d → Made d
  | ofComplex {s : Shape} {l : List (Float × Float)} {d : Block} :
      ofComplex s l = .ok d → Made d
  | range {n : Nat} : Word.listLength n = .ok n → Made (range n)

namespace Dataset

theorem sound_ofElements {k : Kind} {n : Nat} {s : Shape} {l : List Scalar} {d : Block}
    (h : ofElements k n s l = .ok d) : d.Sound := by
  simp only [ofElements, bind_eq_ok, checkItemSize_eq_ok] at h
  obtain ⟨-, hn, m, hm, h⟩ := h
  obtain ⟨rfl, hmax⟩ := elementCount_eq_ok hm
  split at h
  · simp at h
  · rename_i hlength
    simp only [pure_eq_ok] at h
    subst h
    exact sound_ofList hn (not_not.mp hlength).symm (bytes_mul_lt hmax)

theorem Made.sound {d : Block} (h : Made d) : d.Sound := by
  cases h with
  | zeros h =>
    simp only [Dataset.zeros, bind_eq_ok, checkItemSize_eq_ok] at h
    obtain ⟨-, hn, h⟩ := h
    exact sound_fullOf hn h
  | full h => exact sound_fullOf Nat.one_pos h
  | ofElements h => exact sound_ofElements h
  | @ofFn k s f _ h =>
    simp only [Dataset.ofFn, bind_eq_ok, pure_eq_ok] at h
    obtain ⟨n, hn, rfl⟩ := h
    obtain ⟨rfl, hmax⟩ := elementCount_eq_ok (reserve_eq_ok hn)
    exact sound_ofList Nat.one_pos (by simp) (bytes_mul_lt hmax)
  | ofComplex h =>
    simp only [Dataset.ofComplex, bind_eq_ok] at h
    obtain ⟨n, -, h⟩ := h
    split at h
    · simp at h
    · exact sound_ofElements h
  | @range n h =>
    simp only [Word.listLength, bind_eq_ok, check_eq_ok] at h
    obtain ⟨-, hn, -⟩ := h
    have hlt : 8 * n < Word.half := by
      unfold Word.listFault? at hn
      split at hn
      · assumption
      · simp at hn
    exact sound_ofList Nat.one_pos (by simp) (by simpa [Kind.bytes] using hlt)

end Dataset

/-! ## Deriving -/

/-- What derives a dataset from another one. Regions are built by the operations on regions. -/
inductive ViewOp where
  | view
  | copy
  | slice (r : Region) (hr : r.Built)
  | sliceView (r : Region) (hr : r.Built)
  | transposed (axes : List Int)
  | swapAxes (a b : Int)
  | rollAxis (axis start : Int)
  | flip (axis : Int)
  | rot90 (k : Int)
  | reshape (s : Shape)
  | setShape (s : Shape)
  | squeeze
  | squeezeEnds
  | squeezeAxes (axes : List Int)
  | flatten
  | broadcastView (s : Shape)

/-- The dataset that an operation derives, which may be refused. -/
def ViewOp.run (h : Handle) : ViewOp → StoreM Handle
  | view => return h.view
  | copy => h.copy
  | slice r _ => h.slice r
  | sliceView r _ => h.sliceView r
  | transposed axes => h.transposed axes
  | swapAxes a b => h.swapAxes a b
  | rollAxis axis start => h.rollAxis axis start
  | flip axis => h.flip axis
  | rot90 k => h.rot90 k
  | reshape s => h.reshape s
  | setShape s => h.setShape s
  | squeeze => h.squeeze
  | squeezeEnds => h.squeezeEnds
  | squeezeAxes axes => h.squeezeAxes axes
  | flatten => h.flatten
  | broadcastView s => h.broadcastView s

/-- The dataset is over a buffer that the store has. -/
structure Handle.Held (h : Handle) (s : Store) : Prop where
  buffer_lt : h.buffer < s.buffers.size
  sound : h.toFrame.Sound (s.buffer h.buffer).size

instance (h : Handle) (s : Store) : Decidable (h.Held s) :=
  decidable_of_iff (_ ∧ _) ⟨fun hheld => ⟨hheld.1, hheld.2⟩, fun hheld => ⟨hheld.1, hheld.2⟩⟩

/-- What deriving from `h` in the store `s` can come to: a refusal, a dataset over the same buffer,
or one over a new buffer. Buffers that exist stay as they are. -/
inductive Handle.Yields (h : Handle) (s : Store) : Except Error Handle × Store → Prop where
  | refused (e : Error) : Yields h s (.error e, s)
  | shared {v : Handle} : v.Over h.buffer (s.buffer h.buffer).size → Yields h s (.ok v, s)
  | owned {v : Handle} {b : Buffer} : v.Over s.buffers.size b.size →
      Yields h s (.ok v, ⟨s.buffers.push b⟩)

namespace Handle

variable {h : Handle} {s : Store}

@[simp] theorem run_peek (h : Handle) (s : Store) : h.peek.run s = (.ok (s.read h), s) := rfl

@[simp] theorem run_adopt (d : Block) (s : Store) :
    (adopt d).run s = (.ok (s.adopt d).1, (s.adopt d).2) := rfl

theorem Held.over (hh : h.Held s) : h.Over h.buffer (s.buffer h.buffer).size := ⟨rfl, hh.sound⟩

theorem yields_lift {x : Except Error Handle}
    (hx : ∀ v, x = .ok v → v.Over h.buffer (s.buffer h.buffer).size) : h.Yields s (x, s) := by
  cases x with
  | error e => exact .refused e
  | ok v => exact .shared (hx v rfl)

theorem yields_adopt {x : Except Error Block} (hx : ∀ d, x = .ok d → d.Sound) :
    h.Yields s (andThen (x, s) adopt) := by
  cases x with
  | error e => exact .refused e
  | ok d => exact .owned ⟨rfl, hx d rfl⟩

theorem yields_copy (hh : h.Held s) : h.Yields s (h.copy.run s) := by
  have hread : h.read.run s = (.ok (s.read h), s) := by
    have hcheck : (s.read h).checkRead = .ok () := check_eq_ok.mpr hh.sound.fault_eq_none
    simp only [read, run_bind, run_peek, andThen_ok, run_lift, hcheck, run_pure]
  simp only [copy, run_bind, hread]
  exact yields_adopt fun d hd =>
    Except.ok.inj hd ▸ Sound.dense (d := s.read h) hh.sound _

theorem yields_slice {r : Region} (hh : h.Held s) (hr : r.Valid) :
    h.Yields s ((h.slice r).run s) := by
  simp only [slice, run_bind, run_peek, andThen_ok]
  exact yields_adopt fun d hd => Sound.slice (d := s.read h) hh.sound hr hd

theorem yields_reshape {t : Shape} (hh : h.Held s) : h.Yields s ((h.reshape t).run s) := by
  simp only [reshape, run_bind]
  cases hview : h.reshapeView? t with
  | error e => exact .refused e
  | ok v? =>
    cases v? with
    | some v => exact .shared (hh.over.reshapeView hview)
    | none =>
      simp only [andThen_ok, run_bind, run_peek, run_lift]
      exact yields_adopt fun d hd => Sound.reshape (d := s.read h) hh.sound hd

theorem yields_setShape {t : Shape} (hh : h.Held s) : h.Yields s ((h.setShape t).run s) := by
  unfold setShape
  split
  · exact .shared hh.over
  · rw [run_bind]
    cases hreshape : (h.reshape t).run s with
    | mk out s' =>
      have hyields := yields_reshape (t := t) hh
      rw [hreshape] at hyields
      cases hyields with
      | refused e => exact .refused e
      | shared hv => exact .shared ⟨hv.buffer_eq, hv.sound.inside, hv.sound.listable⟩
      | owned hv => exact .owned ⟨hv.buffer_eq, hv.sound.inside, hv.sound.listable⟩

/-- Everything that an operation can do to a dataset of a store. -/
theorem Held.yields (hh : h.Held s) (op : ViewOp) : h.Yields s ((op.run h).run s) := by
  cases op with
  | view => exact .shared hh.over.view
  | copy => exact yields_copy hh
  | slice r hr => exact yields_slice hh hr.valid
  | sliceView r hr => exact yields_lift fun _ hv => hh.over.sliceView hr.valid hv
  | transposed axes => exact yields_lift fun _ hv => hh.over.transposed hv
  | swapAxes a b => exact yields_lift fun _ hv => hh.over.swapAxes hv
  | rollAxis axis start => exact yields_lift fun _ hv => hh.over.rollAxis hv
  | flip axis => exact yields_lift fun _ hv => hh.over.flip hv
  | rot90 k => exact yields_lift fun _ hv => hh.over.rot90 hv
  | reshape t => exact yields_reshape hh
  | setShape t => exact yields_setShape hh
  | squeeze => exact yields_reshape hh
  | squeezeEnds => exact yields_reshape hh
  | squeezeAxes axes =>
    simp only [ViewOp.run, squeezeAxes, run_bind]
    cases h.shape.squeezeAxes axes with
    | error e => exact .refused e
    | ok t => exact yields_reshape hh
  | flatten => exact yields_reshape hh
  | broadcastView t => exact yields_lift fun _ hv => hh.over.broadcastView hv

end Handle

/-! ## Reaching -/

/-- The stores and datasets that any sequence of steps leads to: a dataset is made, or an operation
is tried on one of the datasets there are. -/
inductive Reachable : Store → List Handle → Prop where
  | start : Reachable .empty []
  | make {s : Store} {hs : List Handle} {d : Block} : Reachable s hs → d.Made →
      Reachable (s.adopt d).2 ((s.adopt d).1 :: hs)
  | derive {s s' : Store} {hs : List Handle} {h v : Handle} (op : ViewOp) : Reachable s hs →
      h ∈ hs → (op.run h).run s = (.ok v, s') → Reachable s' (v :: hs)
  | refuse {s s' : Store} {hs : List Handle} {h : Handle} {e : Error} (op : ViewOp) :
      Reachable s hs → h ∈ hs → (op.run h).run s = (.error e, s') → Reachable s' hs

theorem Store.buffer_push {s : Store} {id : BufferId} (hid : id < s.buffers.size) (b : Buffer) :
    (⟨s.buffers.push b⟩ : Store).buffer id = s.buffer id := by
  simp [Store.buffer, Array.getElem_push_lt hid, hid, Nat.lt_succ_of_lt hid]

theorem Handle.Held.push {h : Handle} {s : Store} (hh : h.Held s) (b : Buffer) :
    h.Held ⟨s.buffers.push b⟩ := by
  have hsame := Store.buffer_push hh.buffer_lt b
  exact ⟨by simpa using Nat.lt_succ_of_lt hh.buffer_lt, by rw [hsame]; exact hh.sound⟩

theorem Handle.held_of_over_push {v : Handle} {s : Store} {b : Buffer}
    (hv : v.Over s.buffers.size b.size) : v.Held ⟨s.buffers.push b⟩ := by
  have hbuffer : (⟨s.buffers.push b⟩ : Store).buffer v.buffer = b := by
    simp [Store.buffer, hv.buffer_eq]
  exact ⟨by simp [hv.buffer_eq], by rw [hbuffer]; exact hv.sound⟩

theorem Reachable.held {s : Store} {hs : List Handle} (hreach : Reachable s hs) :
    ∀ h ∈ hs, h.Held s := by
  induction hreach with
  | start => simp
  | @make s hs d _ hmade ih =>
    intro v hv
    rcases mem_cons.mp hv with rfl | hv
    · exact Handle.held_of_over_push ⟨rfl, hmade.sound⟩
    · exact (ih v hv).push d.buffer
  | @derive s s' hs h v op _ hh hrun ih =>
    intro w hw
    have hyields := (ih h hh).yields op
    rw [hrun] at hyields
    cases hyields with
    | shared hv =>
      rcases mem_cons.mp hw with rfl | hw
      · exact ⟨hv.buffer_eq ▸ (ih h hh).buffer_lt, hv.buffer_eq ▸ hv.sound⟩
      · exact ih w hw
    | owned hv =>
      rcases mem_cons.mp hw with rfl | hw
      · exact Handle.held_of_over_push hv
      · exact (ih w hw).push _
  | @refuse s s' hs h e op _ hh hrun ih =>
    have hyields := (ih h hh).yields op
    rw [hrun] at hyields
    cases hyields with
    | refused => exact ih

/-! ## Safety -/

/-- Nothing that reads or writes the dataset item by item leaves its buffer. -/
structure Dataset.Safe (d : Block) : Prop where
  /-- Every item is all in the buffer, over exact integers. -/
  place_inside : ∀ p, d.shape.contains p = true →
    0 ≤ (d.offset : Int) + d.strides.offset p ∧
      (d.offset : Int) + d.strides.offset p + d.itemSize ≤ d.buffer.size
  /-- The index that words give is the exact one. -/
  indexOf_eq : ∀ p, d.shape.contains p = true →
    (d.geometry.indexOf p : Int) = d.offset + d.strides.offset p
  get : ∀ p, d.shape.contains p = true → ∃ v, d.get p = .ok v
  getItem : ∀ p, d.shape.contains p = true → ∃ item, d.getItem p = .ok item
  set : ∀ p v, d.shape.contains p = true → ∃ e, d.set p v = .ok e
  setItem : ∀ p item, d.shape.contains p = true → item.length = d.itemSize →
    ∃ e, d.setItem p item = .ok e
  fill : ∀ v, ∃ e, d.fill v = .ok e
  /-- All items can be read, and where they are read is in the buffer. -/
  read : d.checkRead = .ok () ∧ ∀ i ∈ d.geometry.indices, i + d.itemSize ≤ d.buffer.size
  walk : ∀ o ∈ d.geometry.walk.toList, o.index 0 + d.itemSize ≤ d.buffer.size
  /-- So does the walk of any region. -/
  walkRegion : ∀ (r : Region) (w v : RegionWalk), r.Built →
    RegionWalk.start d.geometry r = .ok w → v ∈ w.toList → v.index + d.itemSize ≤ d.buffer.size

/-- **A sound dataset is safe.** -/
theorem Dataset.Sound.safe {d : Block} (h : d.Sound) : d.Safe where
  place_inside := h.inside.place_inside
  indexOf_eq _ hp := h.inside.cast_indexOf hp
  get _ hp := h.get_eq_ok hp
  getItem _ hp := ⟨_, h.getItem_eq_ok hp⟩
  set _ v hp := ⟨_, h.set_eq_ok hp v⟩
  setItem _ _ hp hitem := ⟨_, h.setItem_eq_ok hp hitem⟩
  fill v := ⟨_, h.fill_eq_ok v⟩
  read := by
    refine ⟨check_eq_ok.mpr h.fault_eq_none, fun i hi => ?_⟩
    rw [Geometry.indices_eq] at hi
    obtain ⟨p, hp, rfl⟩ := mem_map.mp hi
    exact h.inside.indexOf_add_le (Shape.mem_positions.mp hp)
  walk _ ho := h.inside.walk_inside ho
  walkRegion r w v hr hw hv := by
    unfold RegionWalk.start at hw
    split at hw
    · rename_i hsource
      simp only [Except.ok.injEq] at hw
      subst hw
      obtain ⟨o, ho, rfl⟩ := mem_map.mp hv
      exact (h.inside.slice hr.valid hsource).walk_inside ho
    · simp at hw

/-- **Every dataset that is made, and derived in any number of steps, has all of its items in its
buffer: nothing that reads or writes it item by item leaves the buffer.** -/
theorem Reachable.view_safe {s : Store} {hs : List Handle} (hreach : Reachable s hs) {v : Handle}
    (hv : v ∈ hs) : (s.read v).Safe :=
  Dataset.Sound.safe (d := s.read v) (hreach.held v hv).sound

/-- A grid is flipped, so that it has a negative stride, and repeated four times. -/
theorem Reachable.view_safe_repeated_grid : ∃ (s : Store) (h v w : Handle),
    Reachable s [w, v, h] ∧ v.offset = 2 ∧ v.strides = [3, -1] ∧ w.shape = [4, 2, 3] ∧
      w.strides = [0, 3, -1] ∧ (s.read w).Safe := by
  have hmade : Dataset.Made (ofList (.int true .w32) [2, 3] 1 (List.replicate 6 (.int 7))) :=
    .ofElements (k := .int true .w32) (n := 1) (s := [2, 3]) (l := List.replicate 6 (.int 7)) rfl
  have hmake := Reachable.start.make hmade
  have hflip := hmake.derive (.flip 1) List.mem_cons_self rfl
  have hrepeat := hflip.derive (.broadcastView [4, 2, 3]) List.mem_cons_self rfl
  exact ⟨_, _, _, _, hrepeat, rfl, rfl, rfl, rfl, hrepeat.view_safe List.mem_cons_self⟩

end Hyperslab
