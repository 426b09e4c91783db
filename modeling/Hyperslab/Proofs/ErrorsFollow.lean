import Hyperslab.Proofs.Courses
import Hyperslab.Proofs.FieldsFollow
import Hyperslab.Proofs.Origins

/-!
# Errors follow the data

Errors are attached to a dataset as a field that fits its shape. Every operation that derives a
dataset takes the field along, on another way than the items. However many operations there are, the
error that is read at a position of the result is the error of the item that the position holds.
-/
namespace Hyperslab

open Dataset List Permutation Shape

open Dataset

/-! ## Attached errors -/

/-- The attached error at a position of the host. An axis of length 1 is read at 0. -/
def Dataset.errorsAt? {β : Type} (d : Dataset β) (q : Position) : Option (List Scalar) := do
  let e ← d.metadata.errors?
  ((ofField e .empty).getItem (e.shape.project q)).toOption

namespace Metadata

variable {m m' : Metadata} {host : Shape} {value : Position → List Scalar}

/-- The errors are one field, which follows the host. -/
def Carries (m : Metadata) (host : Shape) (value : Position → List Scalar) : Prop :=
  ∃ f, m.errors = [f] ∧ f.Follows host value

namespace Carries

theorem congr {value' : Position → List Scalar} (h : m.Carries host value)
    (hvalue : ∀ q, host.contains q → value q = value' q) : m.Carries host value' := by
  obtain ⟨f, hf, hfollows⟩ := h
  exact ⟨f, hf, hfollows.congr hvalue⟩

theorem copy (h : m.Carries host value) : m.copy.Carries host value := by
  obtain ⟨f, hf, hfollows⟩ := h
  exact ⟨f.dense, by simp [Metadata.copy, hf], hfollows.dense⟩

theorem onSlice {r : Region} {asView : Bool} (h : m.Carries r.source value) (hr : r.Built)
    (hsmall : ∀ n ∈ r.source, n < Word.half) (hpos : 0 < size r.shape)
    (hm : m.onSlice r asView = .ok m') :
    m'.Carries r.shape fun q => value (r.sourcePosition q) := by
  obtain ⟨f, hf, hfollows⟩ := h.copy
  simp only [Metadata.onSlice, bind_eq_ok, pure_eq_ok, mapM_eq_ok, hf] at hm
  obtain ⟨errors, herrors, -, -, -, -, rfl⟩ := hm
  cases herrors with
  | @cons _ g _ _ hg hrest =>
    cases hrest
    exact ⟨g, rfl, hfollows.slice hr hsmall hpos hg⟩

theorem onReshape {t : Shape} {map : Regrouping} (h : m.Carries host value)
    (hmap : Regrouping.of host t = .ok map) (hm : m.onReshape map = .ok m') :
    m'.Carries t fun q => value (unravel (t.ravel q) host) := by
  obtain ⟨f, hf, hfollows⟩ := h.copy
  simp only [Metadata.onReshape, bind_eq_ok, pure_eq_ok, mapM_eq_ok, hf] at hm
  obtain ⟨errors, herrors, -, -, -, -, rfl⟩ := hm
  cases herrors with
  | @cons _ g _ _ hg hrest =>
    cases hrest
    exact ⟨g, rfl, hfollows.reshape hmap hg⟩

theorem onTranspose {perm : List Nat} (h : m.Carries host value) (hperm : Orders perm host.length)
    (hm : m.onTranspose perm = .ok m') :
    m'.Carries (apply perm host) fun q => value (apply (inverse perm) q) := by
  obtain ⟨f, hf, hfollows⟩ := h.copy
  simp only [Metadata.onTranspose, bind_eq_ok, pure_eq_ok, mapM_eq_ok, hf] at hm
  obtain ⟨errors, herrors, -, -, -, -, rfl⟩ := hm
  cases herrors with
  | @cons _ g _ _ hg hrest =>
    cases hrest
    exact ⟨g, rfl, hfollows.transpose hperm hg⟩

end Carries

end Metadata

/-! ## Deriving -/

theorem Frame.Sound.lt_half_of_region {f : Frame} {r : Region} {length : Nat}
    (hf : f.Sound length) (hr : r.Valid) (hsource : r.source = f.shape)
    (hpos : 0 < Shape.size r.shape) : ∀ n ∈ r.source, n < Word.half := by
  intro n hn
  have hsize : 0 < Shape.size r.source := hpos.trans_le hr.size_le
  rw [hsource] at hn hsize
  exact hf.inside.lt_half hsize hn

namespace Dataset

variable {β : Type} {h v : Dataset β} {φ : Position → Position} {length : Nat}
  {value : Position → List Scalar}

theorem Shares.carries (hv : h.Shares φ v) (hh : h.toFrame.Sound length)
    (hpos : 0 < v.shape.size) (herrors : h.metadata.Carries h.shape value) :
    v.metadata.Carries v.shape fun q => value (φ q) := by
  induction hv generalizing value with
  | mark h isView => exact herrors
  | view h => exact herrors.copy
  | @slice h v r hr hv =>
    obtain ⟨hsource, hshape, hm⟩ := sliceView_eq_ok hv
    rw [hshape] at hpos ⊢
    exact (hsource ▸ herrors).onSlice hr (hh.lt_half_of_region hr.valid hsource hpos) hpos hm
  | permute hperm hm => exact herrors.onTranspose hperm hm
  | @reshape h v t hv =>
    obtain ⟨map, hmap, -, -, hm⟩ := reshapeView_eq_some hv
    rw [(shown_reshape hh hv).1]
    exact herrors.onReshape hmap hm
  | @trans h u v φ ψ hu hv ihu ihv =>
    have hushown := hu.shown hh
    -- What has items was derived from something that has items.
    have hsize : 0 < u.shape.size := by
      have hcontains := (hv.shown hushown.sound).shows.contains _ (contains_origin hpos)
      exact size_pos_of_contains hcontains
    exact ihv hushown.sound hpos (ihu hh hsize herrors)
  | congr _ hφψ ih =>
    refine (ih hh hpos herrors).congr fun q hq => ?_
    rw [hφψ q hq]

theorem Packs.carries {d e : Block} (he : d.Packs φ e) (hd : d.Sound) (hpos : 0 < e.shape.size)
    (herrors : d.metadata.Carries d.shape value) :
    e.metadata.Carries e.shape fun q => value (φ q) := by
  cases he with
  | copy _ => exact herrors.copy
  | @slice r e hr he =>
    obtain ⟨hsource, hshape, hm⟩ := slice_eq_ok he
    rw [hshape] at hpos ⊢
    exact (hsource ▸ herrors).onSlice hr (hd.lt_half_of_region hr.valid hsource hpos) hpos hm
  | reshape hmap hm => exact herrors.onReshape hmap hm

end Dataset

namespace Handle

variable {s s' : Store} {h v : Handle} {φ : Position → Position} {value : Position → List Scalar}

theorem Derives.carries (hv : h.Derives s φ s' v) (hh : h.Held s) (hpos : 0 < v.shape.size)
    (herrors : h.metadata.Carries h.shape value) :
    v.metadata.Carries v.shape fun q => value (φ q) := by
  cases hv with
  | shared hv => exact hv.carries hh.sound hpos herrors
  | packed isView hd hφψ =>
    refine (hd.carries hh.sound hpos herrors).congr fun q hq => ?_
    rw [hφψ q hq]

/-- The dataset `r` of the store `s'` was derived from `d` of the store `s` in any number of steps
that repeat nothing, and `φ` leads its positions back to those of `d`. -/
inductive Chain (s : Store) (d : Handle) : (Position → Position) → Store → Handle → Prop where
  | refl : Chain s d id s d
  | step {s' s'' : Store} {φ : Position → Position} {h v : Handle} (op : ViewOp) :
      Chain s d φ s' h → op.repeats = false → (op.run h).run s' = (.ok v, s'') →
      Chain s d (fun q => φ (op.origin h.shape v.shape q)) s'' v

/-- What a chain of steps keeps. -/
structure Chained (s : Store) (d : Handle) (φ : Position → Position) (s' : Store) (r : Handle) :
    Prop where
  held : r.Held s'
  shows : (s'.read r).field.Shows (s.read d).field φ
  carries : ∀ value, d.metadata.Carries d.shape value → 0 < r.shape.size →
    r.metadata.Carries r.shape fun q => value (φ q)

theorem Chain.chained {d r : Handle} (hr : Chain s d φ s' r) (hd : d.Held s) :
    Chained s d φ s' r := by
  induction hr with
  | refl =>
    exact ⟨hd, ⟨hd.sound, rfl, rfl, fun _ hq => hq, fun _ _ => rfl⟩, fun _ herrors _ => herrors⟩
  | @step s' s'' φ h v op _ hop hrun ih =>
    have hderives := ViewOp.derives ih.held hop hrun
    have hshows := hderives.shows ih.held
    refine ⟨hderives.held ih.held, hshows.trans ih.shows, fun value herrors hpos => ?_⟩
    have hsize : 0 < h.shape.size := size_pos_of_contains (hshows.contains _ (contains_origin hpos))
    exact hderives.carries ih.held hpos (ih.carries value herrors hsize)

end Handle

/-! ## Room for errors

Errors are held as doubles. There is always room for that, since no dataset has more elements than a
buffer may have. -/

/-- As many doubles as a frame has elements can be listed. -/
def Frame.Roomy (f : Frame) : Prop := Kind.double.bytes * (f.size * f.itemSize) < Word.half

theorem Frame.Roomy.of_le {f g : Frame} (h : f.Roomy) (hsize : g.size ≤ f.size)
    (hitem : g.itemSize = f.itemSize) : g.Roomy := by
  refine lt_of_le_of_lt (Nat.mul_le_mul_left _ ?_) h
  rw [hitem]
  exact Nat.mul_le_mul_right _ hsize

/-! ## Attaching and reading -/

theorem Dataset.checkErrors_eq_ok {β : Type} {d : Dataset β} {e : Shape}
    (h : d.checkErrors e = .ok ()) : e.length ≤ d.rank ∧ (e.pad d.rank).Fits d.shape := by
  unfold checkErrors at h
  split at h
  · simp at h
  rename_i hrank
  have hrank : e.length ≤ d.shape.length := Nat.not_lt.mp hrank
  simp only [bind_eq_ok] at h
  obtain ⟨joined, hjoined, h⟩ := h
  split at h
  · simp at h
  rename_i hsame
  rw [not_not] at hsame
  subst hsame
  simp only [broadcast, if_neg (Nat.not_lt.mpr hrank)] at hjoined
  split at hjoined
  · rename_i s hs
    rw [Except.ok.inj hjoined] at hs
    refine ⟨hrank, fits_of_joinAxes ?_ hs⟩
    simp only [pad, length_append, length_replicate, Frame.rank]
    omega
  · simp at hjoined

/-- The errors that are attached are the given ones as doubles, repeated along unit axes. -/
theorem Dataset.setErrors_eq_ok {β : Type} {d d' : Dataset β} {e : Field} (he : e.Sound)
    (hroomy : e.Roomy) (h : d.setErrors e = .ok d') : d' = { d with metadata := d'.metadata } ∧
      (∀ q, d.shape.contains q → e.shape.contains (e.shape.project q)) ∧
      ∃ f, d'.metadata.errors = [f] ∧ f.itemSize = e.itemSize ∧
        f.Follows d.shape fun q => (e.item (e.shape.project q)).map Kind.double.cast := by
  simp only [setErrors, Metadata.setErrors, bind_eq_ok, pure_eq_ok] at h
  obtain ⟨⟨⟩, hcheck, m, ⟨-, -, f, hf, rfl⟩, rfl⟩ := h
  obtain ⟨hrank, hfits⟩ := checkErrors_eq_ok hcheck
  obtain ⟨hshows, hshape, -⟩ := Field.shows_reshape (Field.sound_cast he hroomy) hf
  have hpad {q : Position} (hq : d.shape.contains q) :=
    contains_project_pad hrank (length_of_contains hq) (hfits.contains_project hq)
  refine ⟨rfl, fun q hq => (hpad hq).1, f, rfl, hshows.itemSize_eq, hshows.sound, hshape ▸ hfits,
    fun q hq => ?_⟩
  obtain ⟨hcontains, hravel⟩ := hpad hq
  have hcast : (e.cast .double).shape = e.shape := rfl
  rw [hshape, hshows.item_eq _ (hshape ▸ hfits.contains_project hq), hravel, hcast,
    unravel_ravel hcontains, Field.item_cast he hroomy hcontains]

theorem Dataset.setErrors_carries {β : Type} {d d' : Dataset β} {e : Field} (he : e.Sound)
    (hroomy : e.Roomy) (h : d.setErrors e = .ok d') : d' = { d with metadata := d'.metadata } ∧
      (∀ q, d.shape.contains q → e.shape.contains (e.shape.project q)) ∧
      d'.metadata.Carries d.shape fun q => (e.item (e.shape.project q)).map Kind.double.cast := by
  obtain ⟨hd, hcontains, f, hf, -, hfollows⟩ := setErrors_eq_ok he hroomy h
  exact ⟨hd, hcontains, f, hf, hfollows⟩

theorem Handle.setErrors_eq_ok {h e d : Handle} {s s' : Store}
    (hset : (h.setErrors e).run s = (.ok d, s')) (hapart : e.sharesBuffer h = false) :
    s' = s ∧ Dataset.setErrors h (s.read e).field = .ok d := by
  simp only [setErrors, hapart, Bool.false_eq_true, if_false, run_bind, run_peek, andThen_ok] at hset
  exact ⟨(congrArg Prod.snd hset).symm, congrArg Prod.fst hset⟩

namespace Metadata.Carries

variable {host : Shape} {value : Position → List Scalar} {q : Position}

theorem errorsAt_eq {β : Type} {d : Dataset β} (h : d.metadata.Carries d.shape value)
    (hq : d.shape.contains q) : d.errorsAt? q = some (value q) := by
  obtain ⟨f, hf, hfollows⟩ := h
  have hdense := hfollows.dense
  have hsound : (ofField f.dense .empty).Sound := hdense.sound
  have hget := hsound.getItem_eq_ok (hdense.fits.contains_project hq)
  have hitem : (ofField f.dense .empty).item (f.dense.shape.project q) = value q :=
    hdense.item_eq q hq
  rw [hitem] at hget
  simp only [errorsAt?, errors?, hf, head?_cons, Option.map_some, Option.bind_eq_bind,
    Option.bind_some, hget]
  rfl

/-- Errors that can be expanded to the shape of the host are, and have the same items. -/
theorem exists_errorsBroadcast {d : Block} {f : Field} {n : Nat} (hf : d.metadata.errors = [f])
    (hfollows : f.Follows d.shape value) (hcount : elementCount d.shape f.itemSize = .ok n) :
    ∃ b, d.errorsBroadcast? = some b ∧ b.shape = d.shape ∧
      ∀ q, d.shape.contains q → b.getItem q = .ok (value q) := by
  obtain ⟨g, hg, hshape, hgfollows⟩ := hfollows.dense.broadcast hcount
  have hgshape : g.dense.shape = d.shape := hshape
  refine ⟨ofField g.dense .empty, ?_, hgshape, fun q hq => ?_⟩
  · simp only [Dataset.errorsBroadcast?, Metadata.errorsBroadcast?, errors?, hf, List.head?_cons,
      Option.map_some, Option.bind_eq_bind, Option.bind_some, hg]
    rfl
  · have hsound : (ofField g.dense .empty).Sound := hgfollows.dense.sound
    have hitem : (ofField g.dense .empty).item (g.dense.shape.project q) = value q :=
      hgfollows.dense.item_eq q hq
    rw [hgshape, project_self hq] at hitem
    rw [hsound.getItem_eq_ok (by rw [← hgshape] at hq; exact hq), hitem]

theorem errorsBroadcast_eq {d : Block} {n k : Nat} (h : d.metadata.Carries d.shape value)
    (hq : d.shape.contains q) (hk : (value q).length = k)
    (hcount : elementCount d.shape k = .ok n) :
    ∃ b, d.errorsBroadcast? = some b ∧ b.getItem q = .ok (value q) := by
  obtain ⟨f, hf, hfollows⟩ := h
  have hitemSize : f.itemSize = k := by rw [← hk, ← hfollows.item_eq q hq, Field.length_item]
  obtain ⟨b, hb, -, hitem⟩ := exists_errorsBroadcast hf hfollows (hitemSize ▸ hcount)
  exact ⟨b, hb, hitem q hq⟩

end Metadata.Carries

/-! ## Room for errors in a course -/

namespace Dataset

theorem Made.roomy {d : Block} (h : d.Made) : d.Roomy := by
  obtain ⟨k, s, n, e, rfl, hlist⟩ := h.eq_packed
  exact hlist

/-- New frames over a buffer show no more items than the dataset has. -/
theorem Shares.size_le {β : Type} {h v : Dataset β} {φ : Position → Position} {length : Nat}
    (hv : h.Shares φ v) (hh : h.toFrame.Sound length) : v.size ≤ h.size := by
  induction hv with
  | mark h isView => exact le_rfl
  | view h => exact le_rfl
  | @slice h v r hr hv =>
    obtain ⟨hsource, hshape, -⟩ := sliceView_eq_ok hv
    rw [Frame.size, hshape, Frame.size, ← hsource]
    exact hr.valid.size_le
  | permute hperm _ => exact (size_apply hperm).le
  | @reshape h v t hv =>
    obtain ⟨map, hmap, -⟩ := reshapeView_eq_some hv
    rw [Frame.size, (shown_reshape hh hv).1]
    exact (Regrouping.of_eq_ok hmap).1.ge
  | trans hu _ ihu ihv => exact (ihv (hu.shown hh).sound).trans (ihu hh)
  | congr _ _ ih => exact ih hh

theorem Packs.size_le {d e : Block} {φ : Position → Position} (he : d.Packs φ e) :
    e.size ≤ d.size := by
  cases he with
  | copy _ => exact le_rfl
  | @slice r e hr he =>
    obtain ⟨hsource, hshape, -⟩ := slice_eq_ok he
    rw [Frame.size, hshape, Frame.size, ← hsource]
    exact hr.valid.size_le
  | reshape hmap _ => exact (Regrouping.of_eq_ok hmap).1.ge

end Dataset

theorem Handle.Derives.size_le {s s' : Store} {h v : Handle} {φ : Position → Position}
    (hv : h.Derives s φ s' v) (hh : h.Held s) : v.size ≤ h.size := by
  cases hv with
  | shared hv => exact hv.size_le hh.sound
  | packed isView hd hφψ => exact hd.size_le

theorem keeps_roomy {α : Type} (n : Notes α) : n.Keeps fun _ e => e.1.Roomy where
  later _ _ he := he
  make hmade := hmade.roomy
  derive {s s' e op v} hh he hrun := by
    cases hop : op.repeats with
    | false =>
      have hv := ViewOp.derives hh hop hrun
      exact he.of_le (hv.size_le hh) (hv.shows hh).itemSize_eq
    | true =>
      obtain ⟨t, frame, hframe, rfl⟩ := ViewOp.exists_of_repeats hop hrun
      obtain ⟨ts, -, hmax, rfl⟩ := Frame.broadcast_eq_ok hframe
      exact bytes_mul_lt hmax
  write _ he hwrote := by
    cases hwrote with
    | written stop hd => exact he
  summarize _ he hst := by
    cases hst with
    | kept => exact he
    | computed => exact he

/-! ## The law -/

/-- **Errors follow the data.** Take any datasets of a course, attach one to the other as errors,
and derive from the result in any number of steps. Every item of what is derived is an item of the
dataset, at the position that is led back to, and its error is the error of that position: the one
that was given for it. Errors that are copied in words and can be expanded to all items are, with
the same values. -/
theorem Course.errors_follow {α : Type} {n : Notes α} {s s₁ s' : Store} {es : List (Handle × α)}
    (hcourse : Course n s es) {h e : Handle × α} (hh : h ∈ es) (he : e ∈ es) {d r : Handle}
    (hset : (h.1.setErrors e.1).run s = (.ok d, s₁)) (hapart : e.1.sharesBuffer h.1 = false)
    {φ : Position → Position} (hchain : Handle.Chain s₁ d φ s' r) {q : Position}
    (hq : r.shape.contains q = true) :
    d.shape.contains (φ q) = true ∧ (s'.read r).getItem q = (s₁.read d).getItem (φ q) ∧
      r.errorsAt? q = d.errorsAt? (φ q) ∧
      ∃ error, (s.read e.1).getItem (e.1.shape.project (φ q)) = .ok error ∧
        r.errorsAt? q = some (error.map Kind.double.cast) ∧
        ∀ k, elementCount r.shape e.1.itemSize = .ok k → r.metadata.checkCopy = .ok () →
          ∃ b, (s'.read r).errorsBroadcast? = some b ∧
            b.getItem q = .ok (error.map Kind.double.cast) := by
  obtain ⟨rfl, hset⟩ := Handle.setErrors_eq_ok hset hapart
  have heheld := hcourse.held e he
  have heroomy : e.1.Roomy := (hcourse.held_and_keeps (keeps_roomy n) e he).2
  obtain ⟨hd, hcontains, hcarries⟩ :=
    Dataset.setErrors_carries (e := (s₁.read e.1).field) heheld.sound heroomy hset
  have hshape : d.shape = h.1.shape := by rw [hd]
  have hdheld : d.Held s₁ := by
    rw [hd]
    exact ⟨(hcourse.held h hh).buffer_lt, (hcourse.held h hh).sound⟩
  -- From here on the chain of steps speaks for items and errors alike.
  have hchained := hchain.chained hdheld
  have hφq : d.shape.contains (φ q) = true := hchained.shows.contains q hq
  rw [← hshape] at hcarries
  have hr := hchained.carries _ hcarries (Shape.size_pos_of_contains hq)
  have hitem : (s'.read r).item q = (s₁.read d).item (φ q) := hchained.shows.item_eq q hq
  refine ⟨hφq, ?_, ?_, _, ?_, hr.errorsAt_eq hq, fun k hk _ => ?_⟩
  · rw [Sound.getItem_eq_ok (d := s'.read r) hchained.held.sound hq,
      Sound.getItem_eq_ok (d := s₁.read d) hdheld.sound hφq, hitem]
  · rw [hr.errorsAt_eq hq, hcarries.errorsAt_eq hφq]
  · exact Sound.getItem_eq_ok (d := s₁.read e.1) heheld.sound (hcontains _ (hshape ▸ hφq))
  · refine Metadata.Carries.errorsBroadcast_eq (d := s'.read r) hr hq ?_ hk
    rw [List.length_map, Field.length_item]
    rfl

/-- The last and the first of three columns, of two rows. -/
def outerPair : Region := ⟨[2, 3], none, [Span.full 2, ⟨2, -1, -2, 2⟩], false, .none⟩

theorem built_outerPair : outerPair.Built :=
  @Region.Built.ofSlices [2, 3] [.all, .range (some 2) none (-2)] outerPair rfl

theorem made_grid : Made (ofList (.int true .w32) [2, 3] 1 ([0, 1, 2, 3, 4, 5].map Scalar.int)) :=
  .ofElements (k := .int true .w32) (n := 1) (s := [2, 3])
    (l := [0, 1, 2, 3, 4, 5].map Scalar.int) rfl

theorem made_columns : Made (ofList (.int true .w32) [3] 1 ([10, 20, 30].map Scalar.int)) :=
  .ofElements (k := .int true .w32) (n := 1) (s := [3]) (l := [10, 20, 30].map Scalar.int) rfl

/-- A grid gets one error per column. Two columns are taken, last one first, and transposed. -/
theorem Course.exists_chain_with_errors : ∃ (s s' : Store) (es : List (Handle × Unit))
    (h e : Handle × Unit) (d r : Handle) (φ : Position → Position), Course Notes.none s es ∧
      h ∈ es ∧ e ∈ es ∧ (h.1.setErrors e.1).run s = (.ok d, s) ∧ e.1.sharesBuffer h.1 = false ∧
      Handle.Chain s d φ s' r ∧ r.shape = [2, 2] ∧ φ [0, 1] = [1, 2] ∧ e.1.shape = [3] ∧
      (s.read e.1).getItem [2] = .ok [.int 30] := by
  have hcourse := ((Course.start (n := Notes.none)).make made_grid).make made_columns
  exact ⟨_, _, _, _, _, _, _, _, hcourse, mem_cons_of_mem _ mem_cons_self,
    mem_cons_self, rfl, rfl, (Handle.Chain.refl.step (.sliceView outerPair built_outerPair) rfl
      rfl).step (.swapAxes 0 1) rfl rfl, rfl, rfl, rfl, rfl⟩

theorem Course.errors_follow_columns : ∃ (s s' : Store) (d r : Handle), r.shape = [2, 2] ∧
    (s'.read r).getItem [0, 1] = (s.read d).getItem [1, 2] ∧
      r.errorsAt? [0, 1] = d.errorsAt? [1, 2] ∧
      r.errorsAt? [0, 1] = some ([.int 30].map Kind.double.cast) := by
  obtain ⟨s, s', es, h, e, d, r, φ, hcourse, hh, he, hset, hapart, hchain, hshape, hφ, heshape,
    herror⟩ := Course.exists_chain_with_errors
  obtain ⟨-, hitem, herrors, error, hgiven, hread, -⟩ :=
    hcourse.errors_follow hh he hset hapart hchain (q := [0, 1]) (by rw [hshape]; rfl)
  rw [hφ] at hitem herrors hgiven
  rw [heshape] at hgiven
  obtain rfl : error = [.int 30] := Except.ok.inj (hgiven.symm.trans herror)
  exact ⟨s, s', d, r, hshape, hitem, herrors, hread⟩

end Hyperslab
