import Hyperslab.Proofs.StoredForm

/-!
# Reading a dataset that grows

A dataset over storage in memory that has grown can be read, but errors that were attached keep
their shape. Reads fail once the dataset has grown along an axis where there is an error for each
position.
-/
namespace Hyperslab

open Dataset List Region

/-! ## Attached errors -/

/-- Errors that are attached fit the dataset. They can be set aside if the given ones can, as
doubles. -/
theorem Lazy.exists_attached {σ : Type} {l l' : Lazy σ} {errors : Field} {n : Nat}
    (he : errors.Sound) (hroom : reserve .double errors.shape errors.itemSize = .ok n)
    (h : l.setErrors errors = .ok l') :
    ∃ e : Field, l' = { l with metadata := { l.metadata with errors := [e] } } ∧
      e.shape = errors.shape.pad l.rank ∧ e.Attachable l.shape := by
  obtain ⟨-, hbroadcast, m, hm, rfl⟩ := setErrors_eq_ok h
  simp only [Metadata.setErrors, bind_eq_ok, pure_eq_ok] at hm
  obtain ⟨-, -, e, hreshape, rfl⟩ := hm
  obtain ⟨c, hc, hmax, hbytes, rfl⟩ := reserve_eq_ok_iff.mp hroom
  have hlist : Kind.double.bytes * (errors.size * errors.itemSize) < Word.half := by
    rw [Frame.size, Shape.size_of_sizeChecked hc]
    exact bytes_mul_lt hmax
  obtain ⟨hshows, hshape, -⟩ := Field.shows_reshape (Field.sound_cast he hlist) hreshape
  refine ⟨e, rfl, hshape, hshows.sound, ?_, c * errors.itemSize, ?_⟩
  · rw [hshape]
    exact Shape.fits_of_broadcast hbroadcast
  · rw [hshape, hshows.kind_eq, hshows.itemSize_eq, reserve_eq_ok_iff, Shape.sizeChecked_pad]
    exact ⟨c, hc, hmax, hbytes, rfl⟩

/-- A shape fits what another shape has grown to if it fits that one and has unit axes wherever it
grew. -/
theorem Shape.Fits.grown_iff {s host larger : Shape} (hfits : s.Fits host)
    (hle : Forall₂ (· ≤ ·) host larger) :
    s.Fits larger ↔ ∀ axis : Nat, (s : List Nat)[axis]? ≠ some 1 →
      (larger : List Nat)[axis]? = (host : List Nat)[axis]? := by
  induction hfits generalizing larger with
  | nil =>
    cases hle
    exact ⟨fun _ _ _ => rfl, fun _ => .nil⟩
  | @cons d n s host hdn hfits ih =>
    cases hle with
    | @cons _ m _ larger hnm hle =>
      constructor
      · intro h axis haxis
        cases h with
        | cons hdm hrest =>
          cases axis with
          | zero =>
            have hd : d ≠ 1 := fun hd => haxis (by rw [hd]; rfl)
            rw [getElem?_cons_zero, getElem?_cons_zero, ← hdm.resolve_right hd,
              ← hdn.resolve_right hd]
          | succ axis => exact (ih hle).mp hrest axis haxis
      · intro h
        refine .cons ?_ ((ih hle).mpr fun axis => h (axis + 1))
        by_cases hd : d = 1
        · exact .inr hd
        · have hm : m = n := by
            have := h 0 (by rw [getElem?_cons_zero]; exact fun hd' => hd (Option.some.inj hd'))
            exact Option.some.inj this
          exact .inl (hm ▸ hdn.resolve_right hd)

theorem Shape.Fits.shorter {s host larger : Shape} (hfits : s.Fits host)
    (hle : Forall₂ (· ≤ ·) host larger) : Forall₂ (fun d n => d ≤ n ∨ d = 1) s larger := by
  induction hfits generalizing larger with
  | nil =>
    cases hle
    exact .nil
  | cons hdn _ ih =>
    cases hle with
    | cons hnm hle => exact .cons (hdn.imp_left fun h => h.le.trans hnm) (ih hle)

/-! ## Reading everything -/

theorem Dataset.sliceInWords_eq_error {d : Block} {r : Region} (h : r.source ≠ d.shape) :
    d.sliceInWords r = .error (.incompatibleShapes r.source d.shape) := by
  have hcheck : d.checkRegion r = .error (.incompatibleShapes r.source d.shape) := if_neg h
  simp only [sliceInWords, Frame.checkCopied, Frame.regionInWords, hcheck]
  rfl

namespace Lazy

variable {l : Lazy Depot} {i : Nat} {depot : Depot}
  (hl : l.loader = some (Depot.memorySaver i).toLoader) (hbase : l.base = none)
  (hperm : l.perm = none)
include hl hbase hperm

/-- All of a dataset is read when all that is stored can be copied and what is attached to the
dataset follows. -/
theorem run_all_eq : l.all.run depot = ((do
    let data ← (((depot.memory i).stored.sliceInWords (full l.shape)).mapError
      Memory.refusal).mapError (.ofIoFailure ("reading " ++ (l.name ++ (full l.shape).text)))
    let m ← l.metadata.onSlice (full l.shape) false
    return { data with name := l.name ++ (full l.shape).text, metadata := m }), depot) := by
  have hto : l.toSource (full l.shape) = .ok (full l.shape) := by
    have hsource : ¬ (full l.shape).source ≠ l.shape := fun h => h rfl
    simp only [toSource, if_neg hsource, hbase, hperm]
    rfl
  simp only [all, slice, run_bind, run_lift, hto, andThen_ok,
    run_load hl (Depot.read_memorySaver i depot _)]
  cases hdata : (depot.memory i).stored.sliceInWords (full l.shape) with
  | error e => rfl
  | ok data =>
    have harranged : l.arranged (full l.shape) data = .ok data := by
      simp only [arranged, if_pos (slice_eq_ok (slice_of_inWords hdata)).2.1, hperm]
      rfl
    simp only [Except.mapError, ok_bind, harranged]

theorem exists_run_all :
    (∃ b, l.all.run depot = (.ok b, depot)) ↔
      (∃ b, (depot.memory i).stored.sliceInWords (full l.shape) = .ok b) ∧
        ∃ m, l.metadata.onSlice (full l.shape) false = .ok m := by
  rw [run_all_eq hl hbase hperm]
  cases (depot.memory i).stored.sliceInWords (full l.shape) with
  | error e => exact ⟨fun ⟨_, h⟩ => (nomatch h), fun ⟨⟨_, h⟩, _⟩ => (nomatch h)⟩
  | ok data =>
    cases l.metadata.onSlice (full l.shape) false with
    | error e => exact ⟨fun ⟨_, h⟩ => (nomatch h), fun ⟨_, _, h⟩ => (nomatch h)⟩
    | ok m => exact ⟨fun _ => ⟨⟨data, rfl⟩, m, rfl⟩, fun _ => ⟨_, rfl⟩⟩

end Lazy

namespace Writeable

variable {w w' : Writeable Depot} {d : Block} {depot : Depot} {i : Nat}

/-- What is stored after changes can be copied if it was new, or if what was there first can. -/
theorem Stems.exists_slice_iff (h : w'.StoredAt depot i) (hd : d.shape = w.shape)
    (hstems : w'.Stems (depot.memory i).stored w d) :
    (∃ b, (depot.memory i).stored.sliceInWords (full w'.shape) = .ok b) ↔
      (w'.shape = d.shape → ∃ b, d.sliceInWords (full d.shape) = .ok b) := by
  rw [hd]
  by_cases hshape : w'.shape = w.shape
  · have hform := hstems.sameForm hshape
    rw [hshape]
    constructor
    · rintro ⟨b, hb⟩ -
      obtain ⟨c, hc, -⟩ := hform.symm.sliceInWords hb
      exact ⟨c, hc⟩
    · intro hall
      obtain ⟨b, hb⟩ := hall rfl
      obtain ⟨c, hc, -⟩ := hform.sliceInWords hb
      exact ⟨c, hc⟩
  · refine ⟨fun _ hsame => absurd hsame hshape, fun _ => ?_⟩
    rw [← h.shape_eq]
    exact (hstems.copyable hshape).exists_slice

/-- A dataset that has grown since errors were attached can be read if they still fit, and if what is
stored can be copied. If they do not, that is what is reported. -/
theorem StoredAt.run_all_with_errors {e : Field} {host : Shape} (hw : w.StoredAt depot i)
    (hmeta : w.lazy.metadata = .ofErrors e) (he : e.Attachable host)
    (hle : Forall₂ (· ≤ ·) host w.shape) :
    ((∃ b, w.lazy.all.run depot = (.ok b, depot)) ↔
        (∃ b, (depot.memory i).stored.sliceInWords (full w.shape) = .ok b) ∧
          e.shape.Fits w.shape) ∧
      ∀ b, (depot.memory i).stored.sliceInWords (full w.shape) = .ok b → ¬ e.shape.Fits w.shape →
        w.lazy.all.run depot = (.error (.incompatibleShapes e.shape w.shape), depot) := by
  have hshorter : Forall₂ (fun d n => d ≤ n ∨ d = 1) e.shape w.shape := he.fits.shorter hle
  constructor
  · rw [Lazy.exists_run_all hw.loader_eq hw.base_eq hw.perm_eq, hmeta]
    refine and_congr_right fun _ => ⟨?_, ?_⟩
    · rintro ⟨m, hm⟩
      by_contra hfits
      cases hm.symm.trans (Metadata.onSlice_errors_eq_error hshorter hfits)
    · intro hfits
      exact Metadata.exists_onSlice_errors ⟨he.sound, hfits, he.room⟩
  · intro b hb hfits
    have hfollow := Metadata.onSlice_errors_eq_error hshorter hfits
    rw [shape] at hb hfollow
    rw [Lazy.run_all_eq hw.loader_eq hw.base_eq hw.perm_eq, hb, hmeta, hfollow]
    rfl

/-- **Errors block reads where the dataset has outgrown them.** Take a writeable dataset, attach
errors and write any number of times. All of it can be read just if no axis with several errors has
grown since they were attached, and the data it was made of can be copied or it has grown since.
Otherwise reading fails because of the shape of the errors. -/
theorem reads_unless_errors_outgrown {w₀ w₁ w₂ : Writeable Depot} {l : Lazy Depot}
    {depot₀ depot₁ depot₂ depot₃ : Depot} {maxShape : Option Shape} {errors : Field} {n : Nat}
    {before : List Change} {after : List Write}
    (hnew : (ofBlock d maxShape).run depot₀ = (.ok w₀, depot₁))
    (hbefore : (Change.runAll w₀ before).run depot₁ = (.ok w₁, depot₂)) (he : errors.Sound)
    (hroom : reserve .double errors.shape errors.itemSize = .ok n)
    (hl : w₁.lazy.setErrors errors = .ok l)
    (hafter : (Change.runAll { w₁ with lazy := l } (after.map .write)).run depot₂ =
      (.ok w₂, depot₃)) :
    let attached : List Nat := errors.shape.pad w₁.lazy.rank
    let isCopied := w₂.shape = d.shape → ∃ b, d.sliceInWords (Region.full d.shape) = .ok b
    let isOutgrown := ∃ axis : Nat, attached[axis]? ≠ some 1 ∧
      (w₂.shape : List Nat)[axis]? ≠ (w₁.shape : List Nat)[axis]?
    ((∃ b, w₂.lazy.all.run depot₃ = (.ok b, depot₃)) ↔ isCopied ∧ ¬ isOutgrown) ∧
      (isCopied → isOutgrown →
        w₂.lazy.all.run depot₃ = (.error (.incompatibleShapes attached w₂.shape), depot₃)) := by
  intro attached isCopied isOutgrown
  obtain ⟨hw₀, hstored, hmeta₀⟩ := storedAt_ofBlock hnew
  obtain ⟨hw₁, hstems₁, hmeta₁⟩ := hw₀.runAll hbefore
  obtain ⟨e, rfl, heshape, hattached⟩ := Lazy.exists_attached he hroom hl
  have hw := hw₁.attach { w₁.lazy.metadata with errors := [e] }
  obtain ⟨hw₂, hstems₂, -⟩ := hw.runAll hafter
  have hmeta₂ : w₂.lazy.metadata = .ofErrors e := by
    rw [hw.metadata_runAll hafter, hmeta₁, hmeta₀]
    rfl
  have hstems : w₂.Stems (depot₃.memory depot₀.memories.size).stored w₀ d := by
    rw [← hstored]
    exact hstems₂.trans ⟨hstems₁.shape_le, hstems₁.sameForm, hstems₁.copyable⟩
  have hcopied := hstems.exists_slice_iff hw₂ (hstored ▸ hw₀.shape_eq)
  have hle : List.Forall₂ (· ≤ ·) w₁.shape w₂.shape := hstems₂.shape_le
  have hfits : e.shape.Fits w₂.shape ↔ ¬ isOutgrown := by
    rw [hattached.fits.grown_iff hle, heshape]
    simp only [isOutgrown, attached, not_exists, not_and, not_not, ne_eq]
    rfl
  obtain ⟨hread, hblocked⟩ := hw₂.run_all_with_errors hmeta₂ hattached hle
  rw [hcopied, hfits] at hread
  refine ⟨hread, fun hcopy houtgrown => ?_⟩
  obtain ⟨b, hb⟩ := hcopied.mpr hcopy
  rw [hblocked b hb fun h => hfits.mp h houtgrown, heshape]

/-- Two numbers, to which others can be appended. -/
def numbers : Block := Dataset.ofList (.int true .w32) [2] 1 ([1, 2].map Scalar.int)

/-- The same error for all of the numbers. -/
def commonError : Field := .ofList (.int true .w32) "" [1] 1 [.int 4]

/-- An error for each of the two numbers. -/
def ownErrors : Field := .ofList (.int true .w32) "" [2] 1 [.int 4, .int 5]

theorem reads_unless_errors_outgrown_common : ∃ (w₀ w₁ w₂ : Writeable Depot) (l : Lazy Depot)
    (depot₁ depot₂ depot₃ : Depot),
    (ofBlock numbers (some [unlimited])).run .empty = (.ok w₀, depot₁) ∧
      (Change.runAll w₀ [.write (appendNumber 2 (by decide))]).run depot₁ = (.ok w₁, depot₂) ∧
      w₁.lazy.setErrors commonError = .ok l ∧
      (Change.runAll { w₁ with lazy := l } ([appendNumber 3 (by decide)].map .write)).run depot₂ =
        (.ok w₂, depot₃) ∧
      w₁.shape = [3] ∧ w₂.shape = [4] ∧ ∃ b, w₂.lazy.all.run depot₃ = (.ok b, depot₃) := by
  obtain ⟨w₀, w₁, w₂, l, depot₁, depot₂, depot₃, hnew, hbefore, hl, hafter, hw₁, hw₂⟩ :
      ∃ (w₀ w₁ w₂ : Writeable Depot) (l : Lazy Depot) (depot₁ depot₂ depot₃ : Depot),
        (ofBlock numbers (some [unlimited])).run .empty = (.ok w₀, depot₁) ∧
        (Change.runAll w₀ [.write (appendNumber 2 (by decide))]).run depot₁ = (.ok w₁, depot₂) ∧
        w₁.lazy.setErrors commonError = .ok l ∧
        (Change.runAll { w₁ with lazy := l } ([appendNumber 3 (by decide)].map .write)).run depot₂ =
          (.ok w₂, depot₃) ∧ w₁.shape = [3] ∧ w₂.shape = [4] :=
    ⟨_, _, _, _, _, _, _, rfl, rfl, rfl, rfl, rfl, rfl⟩
  refine ⟨w₀, w₁, w₂, l, depot₁, depot₂, depot₃, hnew, hbefore, hl, hafter, hw₁, hw₂, ?_⟩
  have hsound : commonError.Sound := Frame.sound_packed (by decide) (by decide)
  refine (reads_unless_errors_outgrown hnew hbefore hsound (n := 1) rfl hl hafter).1.mpr ⟨?_, ?_⟩
  · rw [hw₂]
    intro hsame
    cases hsame
  · rintro ⟨axis, haxis, hlength⟩
    have hrank : w₁.lazy.rank = 1 := congrArg List.length hw₁
    rw [hrank] at haxis
    rw [hw₁, hw₂] at hlength
    cases axis with
    | zero => exact haxis rfl
    | succ axis => exact hlength rfl

/-- The numbers have an error each, another number is appended, and none of them can be read. -/
theorem errors_block_reads : ∃ (w w' : Writeable Depot) (depot depot' : Depot),
    (ofBlock numbers (some [unlimited])).run .empty = (.ok w, depot) ∧
      (Change.runAll w [.setErrors ownErrors, .write (appendNumber 2 (by decide))]).run depot =
        (.ok w', depot') ∧
      w'.lazy.all.run depot' = (.error (.incompatibleShapes [2] [3]), depot') :=
  ⟨_, _, _, _, rfl, rfl, rfl⟩

end Writeable

end Hyperslab
