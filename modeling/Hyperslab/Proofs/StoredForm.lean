import Hyperslab.Proofs.Attached
import Hyperslab.Proofs.GrowthLimits
import Hyperslab.Proofs.Origins
import Hyperslab.Proofs.RefusedWrites

/-!
# The form of stored data

Whether data can be read does not depend on the values of its elements: it depends on the frame, on
the number of elements and on the fields that are attached. A write in place keeps all of these, so
what could be read before can be read after. A write that makes storage grow puts new data in the
place of the old, which can be read whatever the old data was like.
-/
namespace Hyperslab

open Dataset List

/-! ## Data of the same form -/

structure Metadata.SameFields (m m' : Metadata) : Prop where
  errors_eq : m'.errors = m.errors
  axes_eq : m'.axes = m.axes
  auxiliary_eq : m'.auxiliary = m.auxiliary

namespace Metadata.SameFields

variable {m m' a : Metadata} {r : Region} {asView : Bool}

theorem refl (m : Metadata) : m.SameFields m := ⟨rfl, rfl, rfl⟩

section

variable (h : m.SameFields m')
include h

theorem symm : m'.SameFields m := ⟨h.errors_eq.symm, h.axes_eq.symm, h.auxiliary_eq.symm⟩

theorem trans {m'' : Metadata} (h' : m'.SameFields m'') : m.SameFields m'' :=
  ⟨h'.errors_eq.trans h.errors_eq, h'.axes_eq.trans h.axes_eq, h'.auxiliary_eq.trans h.auxiliary_eq⟩

theorem copy : m.copy.SameFields m'.copy :=
  ⟨congrArg (map Field.dense) h.errors_eq, congrArg (map AxisValues.copy) h.axes_eq,
    congrArg (map Auxiliary.copy) h.auxiliary_eq⟩

theorem checkFollowing_eq (check : Field → Except Error Unit) :
    m'.checkFollowing check = m.checkFollowing check := by
  have hcopy := h.copy
  simp only [checkFollowing, checkCopy, fields, h.errors_eq, h.axes_eq, h.auxiliary_eq,
    hcopy.errors_eq, hcopy.axes_eq, hcopy.auxiliary_eq]

theorem checkTranspose_eq (perm : List Nat) : m'.checkTranspose perm = m.checkTranspose perm := by
  simp only [checkTranspose, h.checkFollowing_eq, checkCopy, fields, h.errors_eq, h.axes_eq,
    h.auxiliary_eq]

theorem onSlice (ha : m.onSlice r asView = .ok a) :
    ∃ a', m'.onSlice r asView = .ok a' ∧ a.SameFields a' := by
  have hcopy := h.copy
  simp only [Metadata.onSlice, bind_eq_ok, pure_eq_ok, hcopy.errors_eq, hcopy.axes_eq,
    hcopy.auxiliary_eq] at ha ⊢
  obtain ⟨errors, herrors, axes, haxes, auxiliary, hauxiliary, rfl⟩ := ha
  exact ⟨_, ⟨errors, herrors, axes, haxes, auxiliary, hauxiliary, rfl⟩, rfl, rfl, rfl⟩

theorem onTranspose {perm : List Nat} (ha : m.onTranspose perm = .ok a) :
    ∃ a', m'.onTranspose perm = .ok a' ∧ a.SameFields a' := by
  have hcopy := h.copy
  simp only [Metadata.onTranspose, bind_eq_ok, pure_eq_ok, hcopy.errors_eq, hcopy.axes_eq,
    hcopy.auxiliary_eq] at ha ⊢
  obtain ⟨errors, herrors, axes, haxes, auxiliary, hauxiliary, rfl⟩ := ha
  exact ⟨_, ⟨errors, herrors, axes, haxes, auxiliary, hauxiliary, rfl⟩, rfl, rfl, rfl⟩

end

end Metadata.SameFields

namespace Dataset

theorem slice_of_inWords {d b : Block} {r : Region} (h : d.sliceInWords r = .ok b) :
    d.slice r = .ok b := by
  simp only [sliceInWords, bind_eq_ok] at h
  obtain ⟨-, -, -, -, h⟩ := h
  exact h

/-- The datasets have the same frame, as many elements and the same fields attached. -/
structure SameForm (d e : Block) : Prop where
  frame_eq : e.toFrame = d.toFrame
  size_eq : e.buffer.size = d.buffer.size
  fields : d.metadata.SameFields e.metadata

namespace SameForm

variable {d e b : Block} {r : Region}

theorem refl (d : Block) : d.SameForm d := ⟨rfl, rfl, .refl _⟩

section

variable (h : d.SameForm e)
include h

theorem symm : e.SameForm d := ⟨h.frame_eq.symm, h.size_eq.symm, h.fields.symm⟩

theorem trans {f : Block} (h' : e.SameForm f) : d.SameForm f :=
  ⟨h'.frame_eq.trans h.frame_eq, h'.size_eq.trans h.size_eq, h.fields.trans h'.fields⟩

theorem shape_eq : e.shape = d.shape := congrArg Frame.shape h.frame_eq

theorem sound (hd : d.Sound) : e.Sound := by
  rw [Sound, h.frame_eq, h.size_eq]
  exact hd

theorem slice (hb : d.slice r = .ok b) : ∃ c, e.slice r = .ok c ∧ b.SameForm c := by
  simp only [Dataset.slice, Field.slice, Field.sliceView, bind_eq_ok, pure_eq_ok] at hb
  obtain ⟨f, ⟨v, ⟨frame, hframe, rfl⟩, n, hn, ⟨⟩, hread, rfl⟩, m, hm, rfl⟩ := hb
  obtain ⟨m', hm', hfields⟩ := h.fields.onSlice hm
  have hframe' : e.toFrame.slice r = .ok frame := by rwa [h.frame_eq]
  have hread' : (e.field.withFrame frame).checkRead = .ok () := by
    rw [Field.checkRead] at hread ⊢
    have hsize : (e.field.withFrame frame).buffer.size = (d.field.withFrame frame).buffer.size :=
      h.size_eq
    rw [hsize]
    exact hread
  have hn' : reserve e.field.kind r.shape e.field.itemSize = .ok n := by
    change reserve e.toFrame.kind r.shape e.toFrame.itemSize = .ok n
    rwa [h.frame_eq]
  refine ⟨ofField (e.field.withFrame frame).dense m', ?_, rfl, ?_, hfields⟩
  · simp only [Dataset.slice, Field.slice, Field.sliceView, bind_eq_ok]
    exact ⟨_, ⟨_, ⟨frame, hframe', rfl⟩, n, hn', (), hread', rfl⟩, m', hm', rfl⟩
  · have hsize (buffer : Elements) : (frame.elements buffer).toArray.size =
        frame.size * frame.itemSize := by rw [size_toArray, length_elements]
    exact (hsize e.buffer.elements).trans (hsize d.buffer.elements).symm

theorem sliceInWords (hb : d.sliceInWords r = .ok b) :
    ∃ c, e.sliceInWords r = .ok c ∧ b.SameForm c := by
  simp only [Dataset.sliceInWords, bind_eq_ok] at hb ⊢
  obtain ⟨u, hcopied, u', hmeta, hb⟩ := hb
  obtain ⟨c, hc, hform⟩ := h.slice hb
  rw [h.frame_eq]
  exact ⟨c, ⟨u, hcopied, u', (h.fields.checkFollowing_eq _).trans hmeta, hc⟩, hform⟩

theorem transposed {axes : List Int} (hb : d.transposed axes = .ok b) :
    ∃ c, e.transposed axes = .ok c ∧ b.SameForm c := by
  simp only [Dataset.transposed, bind_eq_ok] at hb ⊢
  rw [h.frame_eq]
  obtain ⟨perm, hperm, hb⟩ := hb
  by_cases hid : Permutation.isIdentity perm
  · rw [if_pos hid, pure_eq_ok] at hb
    subst hb
    refine ⟨e.view, ⟨perm, hperm, if_pos hid⟩, ?_, h.size_eq, h.fields.copy⟩
    exact congrArg Frame.view h.frame_eq
  · simp only [if_neg hid, bind_eq_ok, pure_eq_ok] at hb
    obtain ⟨u, hu, m, hm, rfl⟩ := hb
    obtain ⟨m', hm', hfields⟩ := h.fields.onTranspose hm
    refine ⟨e.through (d.permuted perm) m', ⟨perm, hperm, ?_⟩, rfl, h.size_eq, hfields⟩
    simp only [if_neg hid, bind_eq_ok]
    exact ⟨u, hu, m', hm', rfl⟩

theorem transposedInWords {axes : List Int} (hb : d.transposedInWords axes = .ok b) :
    ∃ c, e.transposedInWords axes = .ok c ∧ b.SameForm c := by
  simp only [Dataset.transposedInWords, bind_eq_ok] at hb ⊢
  obtain ⟨perm, hperm, u, hchecked, u', hmeta, hb⟩ := hb
  obtain ⟨c, hc, hform⟩ := h.transposed hb
  rw [h.frame_eq]
  exact ⟨c, ⟨perm, hperm, u, hchecked, u', (h.fields.checkTranspose_eq perm).trans hmeta, hc⟩, hform⟩

end

end SameForm

theorem sameForm_afterWrite {d : Block} {f : Elements → Elements} (hf : ∀ e, (f e).size = e.size)
    (stop : Option Fault) : d.SameForm (d.afterWrite f stop).dataset := by
  cases stop with
  | none => exact ⟨rfl, hf _, rfl, rfl, rfl⟩
  | some fault => exact ⟨rfl, hf _, rfl, rfl, rfl⟩

theorem sameForm_writeSliceInWords {d data : Block} {r : Region} {w : Written Buffer}
    (hw : d.writeSliceInWords r data = .ok w) : d.SameForm w.dataset := by
  simp only [writeSliceInWords, bind_eq_ok, pure_eq_ok] at hw
  obtain ⟨items, -, g, -, rfl⟩ := hw
  exact sameForm_afterWrite (fun e => by simp only [Elements.size_putItems]) _

theorem sameForm_setSliceInWords {d data e : Block} {r : Region}
    (he : d.setSliceInWords r data = .ok e) : d.SameForm e := by
  simp only [setSliceInWords, Written.finish, bind_eq_ok, pure_eq_ok] at he
  obtain ⟨w, hw, -, -, rfl⟩ := he
  exact sameForm_writeSliceInWords hw

theorem sameForm_fill {d e : Block} {v : Scalar} (he : d.fill v = .ok e) : d.SameForm e := by
  simp only [fill, Written.finish, bind_eq_ok, pure_eq_ok] at he
  obtain ⟨-, -, rfl⟩ := he
  exact sameForm_afterWrite (fun e => e.size_putItems _) _

/-! ## Data that can be copied -/

/-- The data can be read and set aside as a whole and has no fields that would have to follow. -/
structure Copyable (d : Block) : Prop where
  sound : d.Sound
  room : ∃ n, reserve d.kind d.shape d.itemSize = .ok n
  fields : Metadata.empty.SameFields d.metadata
  loads : d.LoadsInWords (.full d.shape)

namespace Copyable

variable {d e : Block} {r : Region}

theorem sameForm (h : d.Copyable) (hform : d.SameForm e) : e.Copyable where
  sound := hform.sound h.sound
  room := by
    rw [hform.frame_eq]
    exact h.room
  fields := h.fields.trans hform.fields
  loads := by
    rw [hform.frame_eq]
    exact h.loads

theorem exists_slice (h : d.Copyable) : ∃ b, d.sliceInWords (.full d.shape) = .ok b := by
  obtain ⟨n, hn⟩ := h.room
  have hn : reserve d.kind (Region.full d.shape).shape d.itemSize = .ok n := by
    rwa [Region.shape_full]
  have hbare : d.bare.SameForm d := ⟨rfl, rfl, h.fields⟩
  have hsound : d.bare.Sound := h.sound
  have hloads : d.bare.LoadsInWords (.full d.shape) := h.loads
  have hb := hsound.sliceInWords_eq rfl (Region.valid_full d.shape) rfl hn
  rw [Word.ensure_of hloads, hsound.slice_eq (Region.valid_full d.shape) rfl rfl hn] at hb
  obtain ⟨b, hb, -⟩ := hbare.sliceInWords hb
  exact ⟨b, hb⟩

end Copyable

end Dataset

/-! ## Storage in memory -/

theorem Shape.allFit_strides {s : Shape} {n : Nat} (h : s.stridesFit n) :
    Word.AllFit (s.strides n) := by
  induction s with
  | nil => exact Word.allFit_nil
  | cons d s ih =>
    rw [stridesFit, Bool.and_eq_true] at h
    have hextent : Word.fits (extent n s) := by
      cases s with
      | nil => exact h.2
      | cons e s =>
        rw [stridesFit, Bool.and_eq_true] at h
        exact h.2.1
    exact Word.allFit_cons.mpr ⟨hextent, ih h.2⟩

theorem Geometry.slice_full_dense (s : Shape) (n : Nat) :
    (Geometry.dense s n).slice (.full s) = Geometry.dense s n := by
  obtain ⟨hsteps, hstarts⟩ : zipWith (· * ·) (s.strides n) (Region.full s).steps = s.strides n ∧
      ∀ ts, (zipWith (· * ·) (Region.full s).starts ts).foldr (· + ·) 0 = 0 := by
    simp only [Region.steps, Region.starts, Region.full]
    induction s with
    | nil => exact ⟨rfl, fun _ => rfl⟩
    | cons d s ih =>
      refine ⟨by simpa [Shape.strides, Span.full] using ih.1, fun ts => ?_⟩
      cases ts with
      | nil => rfl
      | cons t ts => simpa [Span.full] using ih.2 ts
  simp only [slice, dense, Region.shape_full, hstarts, hsteps]
  split <;> rfl

namespace Memory

variable {m m' : Memory} {r : Region} {data : Block}

/-- Storage that has grown can be read, whatever it held before. -/
theorem copyable_grown {s : Shape} {larger : Block} (h : m.grown s = .ok larger) :
    larger.Copyable := by
  have hframe := toFrame_grown h
  simp only [grown, bind_eq_ok, pure_eq_ok] at h
  obtain ⟨z, hz, ⟨⟩, hwalk, f, hf, old, -, e, he, rfl⟩ := h
  obtain ⟨hzframe, hsound, hmeta, -, -, l, hl⟩ := zeros_eq_ok hz
  rw [Frame.checkWalk_eq, Word.ensure_eq_ok, hzframe] at hwalk
  have hform := (sameForm_fill hf).trans (sameForm_setSliceInWords he)
  refine ⟨⟨(hform.sound hsound).inside, (hform.sound hsound).listable⟩, ⟨l, by rwa [hframe]⟩,
    by rw [← hmeta]; exact hform.fields, ?_⟩
  rw [hframe]
  refine ⟨hwalk.1, ?_, ?_⟩
  · rw [Region.shape_full]
    obtain ⟨c, hc, -⟩ := reserve_eq_ok_iff.mp hl
    exact Option.isSome_of_eq_some hc
  · change Word.AllFit ((Geometry.dense s m.stored.itemSize).slice (.full s)).strides ∧
      Word.AllFit ((Geometry.dense s m.stored.itemSize).slice (.full s)).walkNumbers
    rw [Geometry.slice_full_dense]
    exact ⟨Shape.allFit_strides (hwalk.1 rfl), hwalk.2⟩

/-- A write that goes through keeps the form of what is stored, or makes the storage grow. -/
theorem write_eq_ok (h : write r data m = (.ok (), m')) :
    m'.stored.shape = r.source ∧ (r.source = m.stored.shape → m.stored.SameForm m'.stored) ∧
      (r.source ≠ m.stored.shape → m'.stored.Copyable) := by
  cases hprepared : m.prepared r with
  | error e =>
    simp only [write, hprepared] at h
    cases h
  | ok p =>
    cases hw : p.stored.writeSliceInWords r data with
    | error e =>
      simp only [write, hprepared, hw] at h
      cases h
    | ok w =>
      simp only [write, hprepared, hw, Prod.mk.injEq] at h
      obtain ⟨-, rfl⟩ := h
      have hform := sameForm_writeSliceInWords hw
      rw [prepared] at hprepared
      split at hprepared
      · next hsource =>
        cases hprepared
        exact ⟨hform.shape_eq.trans hsource.symm, fun _ => hform, fun h => absurd hsource h⟩
      · next hsource =>
        split at hprepared
        · simp only [bind_eq_ok, pure_eq_ok] at hprepared
          obtain ⟨larger, hlarger, rfl⟩ := hprepared
          exact ⟨hform.shape_eq.trans (grown_eq_ok hlarger).1, fun h => absurd h hsource,
            fun _ => (copyable_grown hlarger).sameForm hform⟩
        · cases hprepared

end Memory

/-! ## Reading through a lazy dataset -/

namespace Lazy

variable {l : Lazy Depot} {i : Nat} {depot depot' : Depot} {r source : Region} {b : Block}
  {arrange : Block → Except Error Block}

theorem run_load_eq_ok (hl : l.loader = some (Depot.memorySaver i).toLoader) :
    (l.load r source arrange).run depot = (.ok b, depot') ↔ depot' = depot ∧ ∃ data c m,
      (depot.memory i).stored.sliceInWords source = .ok data ∧ arrange data = .ok c ∧
        l.metadata.onSlice r false = .ok m ∧
        b = { c with name := l.name ++ r.text, metadata := m } := by
  rw [run_load hl (Depot.read_memorySaver i depot source), Prod.mk.injEq]
  cases (depot.memory i).stored.sliceInWords source with
  | error e =>
    constructor
    · rintro ⟨⟨⟩, -⟩
    · rintro ⟨-, _, _, _, ⟨⟩, -⟩
  | ok data =>
    simp only [Except.mapError, ok_bind, bind_eq_ok, pure_eq_ok, Except.ok.injEq]
    constructor
    · rintro ⟨⟨c, hc, m, hm, rfl⟩, rfl⟩
      exact ⟨rfl, data, c, m, rfl, hc, hm, rfl⟩
    · rintro ⟨rfl, _, c, m, rfl, hc, hm, rfl⟩
      exact ⟨⟨c, hc, m, hm, rfl⟩, rfl⟩

end Lazy

/-! ## Handles of storage in memory -/

namespace Writeable

/-- A write to a handle, or errors that are attached to it. -/
inductive Change where
  | write (call : Write)
  | setErrors (errors : Field)

namespace Change

variable {σ : Type}

/-- Carries out a change; the handle afterwards. -/
def run (w : Writeable σ) : Change → Task σ (Writeable σ)
  | write call => do return (← call.run w).1
  | setErrors errors => do return { w with lazy := ← w.lazy.setErrors errors }

/-- Carries out changes one after the other, all of which have to go through. -/
def runAll (w : Writeable σ) (changes : List Change) : Task σ (Writeable σ) :=
  changes.foldlM run w

end Change

/-- The handle reads and writes storage `i` of the depot, and has the shape of what is stored. -/
structure StoredAt (w : Writeable Depot) (depot : Depot) (i : Nat) : Prop where
  saver_eq : w.saver = some (Depot.memorySaver i)
  loader_eq : w.lazy.loader = some (Depot.memorySaver i).toLoader
  base_eq : w.lazy.base = none
  perm_eq : w.lazy.perm = none
  length_maxShape : w.maxShape.length = w.shape.length
  lt_size : i < depot.memories.size
  shape_eq : (depot.memory i).stored.shape = w.shape

/-- How a handle and what it stores come from an earlier handle and what that one stored: the shape
has not changed and neither has the form of the data, or it has grown and the data is new. -/
structure Stems (w' : Writeable Depot) (e : Block) (w : Writeable Depot) (d : Block) : Prop where
  shape_le : List.Forall₂ (· ≤ ·) w.shape w'.shape
  sameForm : w'.shape = w.shape → d.SameForm e
  copyable : w'.shape ≠ w.shape → e.Copyable

namespace Stems

variable {w w' w'' : Writeable Depot} {d e f : Block}

theorem of_shape_eq (hshape : w'.shape = w.shape) (hform : d.SameForm e) : w'.Stems e w d where
  shape_le := by
    rw [hshape]
    exact forall₂_same.mpr fun _ _ => le_rfl
  sameForm _ := hform
  copyable h := absurd hshape h

theorem trans (h' : w''.Stems f w' e) (h : w'.Stems e w d) : w''.Stems f w d where
  shape_le := Shape.forall₂_le_trans h.shape_le h'.shape_le
  sameForm hshape := by
    -- A dataset that has its first shape again has never had another one.
    have hback : Forall₂ (· ≤ ·) w'.shape w.shape := hshape ▸ h'.shape_le
    have hsame : w'.shape = w.shape := Shape.eq_of_forall₂_le hback h.shape_le
    exact (h.sameForm hsame).trans (h'.sameForm (hshape.trans hsame.symm))
  copyable hshape := by
    by_cases hsame : w''.shape = w'.shape
    · exact (h.copyable (hsame ▸ hshape)).sameForm (h'.sameForm hsame)
    · exact h'.copyable hsame

end Stems

namespace StoredAt

variable {w w' : Writeable Depot} {depot depot' : Depot} {i : Nat}

variable (h : w.StoredAt depot i)
include h

theorem attach (m : Metadata) : StoredAt { w with lazy := { w.lazy with metadata := m } } depot i :=
  ⟨h.saver_eq, h.loader_eq, h.base_eq, h.perm_eq, h.length_maxShape, h.lt_size, h.shape_eq⟩

theorem write {call : Write} {calls : List (String × Event)}
    (hrun : (call.run w).run depot = (.ok (w', calls), depot')) :
    w'.StoredAt depot' i ∧ w'.lazy.metadata = w.lazy.metadata ∧
      w'.Stems (depot'.memory i).stored w (depot.memory i).stored := by
  obtain ⟨r, -, hcheck, saver, hsaver, ⟨-, rfl, -, rfl⟩ | ⟨-, rfl, -, dense, hstore⟩⟩ :=
    call.run_eq_ok hrun
  · exact ⟨h, rfl, .of_shape_eq rfl (.refl _)⟩
  · obtain rfl : saver = Depot.memorySaver i := by
      simp only [openSaver, h.saver_eq] at hsaver
      split at hsaver
      · exact (Except.ok.inj hsaver).symm
      · cases hsaver
    have hwrite : (Depot.memorySaver i).write r dense depot = (.ok (), depot') := by
      cases hasync : call.isAsync w <;> rwa [hasync] at hstore
    rw [Depot.write_memorySaver, Prod.mk.injEq] at hwrite
    obtain ⟨hok, rfl⟩ := hwrite
    obtain ⟨hshape, hform, hcopyable⟩ := Memory.write_eq_ok (Prod.ext hok rfl)
    have hle := forall₂_of_checkRegion h.length_maxShape hcheck
    have hmemory := Depot.memory_setMemory (m := (Memory.write r dense (depot.memory i)).2)
      h.lt_size
    refine ⟨⟨h.saver_eq, h.loader_eq, h.base_eq, h.perm_eq, ?_, ?_, ?_⟩, rfl, ?_⟩
    · exact h.length_maxShape.trans hle.length_eq
    · rw [Depot.size_setMemory]
      exact h.lt_size
    · rw [hmemory]
      exact hshape
    · rw [hmemory]
      rw [h.shape_eq] at hform hcopyable
      exact ⟨hle, hform, hcopyable⟩

/-- What a change does to the storage; of what is attached it can replace the errors. -/
theorem change {c : Change} (hrun : (c.run w).run depot = (.ok w', depot')) :
    w'.StoredAt depot' i ∧ w'.Stems (depot'.memory i).stored w (depot.memory i).stored ∧
      w'.lazy.metadata = { w.lazy.metadata with errors := w'.lazy.metadata.errors } := by
  cases c with
  | write call =>
    simp only [Change.run, run_bind_eq_ok] at hrun
    obtain ⟨⟨w'', calls⟩, _, hrun, rfl, rfl⟩ := hrun
    obtain ⟨hw', hmeta, hstems⟩ := h.write hrun
    exact ⟨hw', hstems, by rw [hmeta]⟩
  | setErrors errors =>
    simp only [Change.run, run_bind_eq_ok, run_lift_eq_ok] at hrun
    obtain ⟨l, _, ⟨hl, rfl⟩, rfl, rfl⟩ := hrun
    obtain ⟨-, -, m, hm, rfl⟩ := Lazy.setErrors_eq_ok hl
    simp only [Metadata.setErrors, bind_eq_ok, pure_eq_ok] at hm
    obtain ⟨-, -, e, -, rfl⟩ := hm
    exact ⟨h.attach _, .of_shape_eq rfl (.refl _), rfl⟩

theorem runAll {changes : List Change}
    (hrun : (Change.runAll w changes).run depot = (.ok w', depot')) :
    w'.StoredAt depot' i ∧ w'.Stems (depot'.memory i).stored w (depot.memory i).stored ∧
      w'.lazy.metadata = { w.lazy.metadata with errors := w'.lazy.metadata.errors } := by
  induction changes generalizing w depot with
  | nil =>
    cases hrun
    exact ⟨h, .of_shape_eq rfl (.refl _), rfl⟩
  | cons c changes ih =>
    rw [Change.runAll, foldlM_cons, run_bind_eq_ok] at hrun
    obtain ⟨w₁, depot₁, hc, hrun⟩ := hrun
    obtain ⟨hw₁, hstems₁, hmeta₁⟩ := h.change hc
    obtain ⟨hw', hstems, hmeta⟩ := ih hw₁ hrun
    exact ⟨hw', hstems.trans hstems₁, by rw [hmeta, hmeta₁]⟩

theorem metadata_runAll {calls : List Write}
    (hrun : (Change.runAll w (calls.map .write)).run depot = (.ok w', depot')) :
    w'.lazy.metadata = w.lazy.metadata := by
  induction calls generalizing w depot with
  | nil =>
    cases hrun
    rfl
  | cons call calls ih =>
    rw [map_cons, Change.runAll, foldlM_cons, run_bind_eq_ok] at hrun
    obtain ⟨w₁, depot₁, hc, hrun⟩ := hrun
    simp only [Change.run, run_bind_eq_ok] at hc
    obtain ⟨⟨w₂, events⟩, _, hcall, rfl, rfl⟩ := hc
    obtain ⟨hw₁, hmeta, -⟩ := h.write hcall
    exact (ih hw₁ hrun).trans hmeta

end StoredAt

theorem storedAt_ofBlock {d : Block} {maxShape : Option Shape} {w : Writeable Depot}
    {depot depot' : Depot} (h : (ofBlock d maxShape).run depot = (.ok w, depot')) :
    w.StoredAt depot' depot.memories.size ∧
      (depot'.memory depot.memories.size).stored = d ∧ w.lazy.metadata = .empty := by
  simp only [ofBlock, ofSaver, run_bind_eq_ok, run_lift_eq_ok] at h
  obtain ⟨i, _, hkeep, w₀, _, ⟨hw₀, rfl⟩, h⟩ := h
  cases hkeep
  simp only [withoutSaver, bind_eq_ok, pure_eq_ok] at hw₀
  obtain ⟨⟨⟩, hshapes, rfl⟩ := hw₀
  cases h
  have hlt : depot.memories.size < (Depot.keep d depot).2.memories.size := by
    simp [Depot.keep, Depot.addMemory]
  -- Telling the storage its fill value leaves what is stored.
  have hstored : ((Depot.memorySaver depot.memories.size).setFill d.kind.zero
      (Depot.keep d depot).2).memory depot.memories.size = .of d := by
    change ((Depot.keep d depot).2.setMemory depot.memories.size
      { (Depot.keep d depot).2.memory depot.memories.size with fill := d.kind.zero }).memory _ = _
    rw [Depot.memory_setMemory hlt]
    have hkept : (Depot.keep d depot).2.memory depot.memories.size = .of d :=
      Depot.memory_keep d depot
    rw [hkept]
    rfl
  refine ⟨⟨rfl, rfl, rfl, rfl, length_of_checkShapes hshapes, ?_, ?_⟩, ?_, rfl⟩
  · exact hlt.trans_eq Depot.size_setMemory.symm
  · exact congrArg (fun m : Memory => m.stored.shape) hstored
  · exact congrArg Memory.stored hstored

end Writeable

end Hyperslab
