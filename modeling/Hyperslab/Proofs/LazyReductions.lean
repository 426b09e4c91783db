import Hyperslab.Proofs.AxisFoldsInWords
import Hyperslab.Proofs.Fillings
import Hyperslab.Proofs.LazyReads

/-!
# Lazy reductions agree with eager ones

Sums and products along an axis have the same values whether they are read slice by slice or folded
as a whole, and sums over several axes are those along one axis after the other. The slices are
found by an index on their axis and by all of the other axes, which only an axis below `2 ^ 63` has.
A slice that is not read in words stops the one, and a number that is no word the other.
-/
namespace Hyperslab

open Dataset List Permutation Region Shape Word

/-! ## The same values -/

namespace Dataset

variable {d d' e e' : Block} {a : Nat} {init : Float} {f : Float → Float → Float}

/-- Datasets of one kind, shape and item size, with the same elements. -/
structure SameValues (d e : Block) : Prop where
  kind_eq : d.kind = e.kind
  shape_eq : d.shape = e.shape
  itemSize_eq : d.itemSize = e.itemSize
  toList_eq : d.toList = e.toList

/-- Datasets of one kind, shape and item size that hold the same item at every position. -/
structure SameItems (d e : Block) : Prop where
  kind_eq : d.kind = e.kind
  shape_eq : d.shape = e.shape
  itemSize_eq : d.itemSize = e.itemSize
  item_eq : ∀ p, d.shape.contains p = true → d.item p = e.item p

theorem SameItems.refl (d : Block) : d.SameItems d := ⟨rfl, rfl, rfl, fun _ _ => rfl⟩

theorem SameItems.sameValues (h : d.SameItems e) : d.SameValues e := by
  refine ⟨h.kind_eq, h.shape_eq, h.itemSize_eq, ?_⟩
  rw [toList, toList, Frame.elements_eq, Frame.elements_eq, ← h.shape_eq]
  congr 1
  exact map_congr_left fun p hp => h.item_eq p (mem_positions.mp hp)

@[simp] theorem kind_cast (d : Block) (k : Kind) : (d.cast k).kind = k := rfl

@[simp] theorem shape_cast (d : Block) (k : Kind) : (d.cast k).shape = d.shape := rfl

@[simp] theorem itemSize_cast (d : Block) (k : Kind) : (d.cast k).itemSize = d.itemSize := rfl

theorem toList_ofField (k : Kind) (name name' : String) (s : Shape) (n : Nat) (l : List Scalar) :
    (ofField (Field.ofList k name s n l) .empty).toList =
      (ofField (Field.ofList k name' s n l) .empty).toList := by
  exact congrArg List.flatten (List.map_congr_left fun _ _ => rfl)

theorem SameValues.cast (h : d.SameValues e) (k : Kind) : (d.cast k).SameValues (e.cast k) := by
  refine ⟨by simp, by simp [h.shape_eq], by simp [h.itemSize_eq], ?_⟩
  have hlist : d.field.toList = e.field.toList := h.toList_eq
  have hshape : d.field.shape = e.field.shape := h.shape_eq
  have hitemSize : d.field.itemSize = e.field.itemSize := h.itemSize_eq
  rw [Dataset.cast, Field.cast, hlist, hshape, hitemSize]
  exact toList_ofField ..

theorem FoldOf.sameItems (h : e.FoldOf d a init f) (h' : e'.FoldOf d' a init f)
    (hsame : d.SameItems d') (ha : a < d.shape.length) : e.SameItems e' := by
  refine ⟨?_, ?_, ?_, fun q hq => ?_⟩
  · rw [h.frame_eq, h'.frame_eq]
    rfl
  · rw [h.shape_eq, h'.shape_eq, hsame.shape_eq]
  · rw [h.itemSize_eq, h'.itemSize_eq, hsame.itemSize_eq]
  · rw [h.shape_eq] at hq
    have halong : d.along a q = d'.along a q := by
      rw [along, along, ← hsame.shape_eq]
      refine map_congr_left fun i hi => hsame.item_eq _ ?_
      refine contains_insertIdx (getElem?_eq_getElem ha) ?_ hq
      simpa [getElem?_eq_getElem ha] using hi
    rw [h.item_eq q hq, h'.item_eq q (hsame.shape_eq ▸ hq), halong, hsame.itemSize_eq]

/-- The fold of the elements along an axis is a fold of the dataset. -/
theorem Sound.foldOf_foldedAlong (hd : d.Sound) {n : Nat}
    (hcount : elementCount (d.shape.eraseIdx a) d.itemSize = .ok n) :
    (d.foldedAlong a init f).FoldOf d a init f := by
  obtain ⟨rfl, hmax⟩ := elementCount_eq_ok hcount
  have hlength (q : Position) (_ : Shape.contains (d.shape.eraseIdx a) q) :=
    d.length_foldedRun a init f q
  exact ⟨sound_ofItems hd.itemSize_pos hlength (bytes_mul_lt hmax), rfl, rfl,
    fun q hq => item_ofItems hd.itemSize_pos hlength (bytes_mul_lt hmax) hq⟩

theorem FoldOf.fresh (h : e.FoldOf d a init f)
    (hroom : ∃ n, reserve .double (d.shape.eraseIdx a) d.itemSize = .ok n) :
    e.Fresh .double (d.shape.eraseIdx a) d.itemSize := by
  obtain ⟨n, hn⟩ := hroom
  obtain ⟨rfl, hmax⟩ := elementCount_eq_ok (reserve_eq_ok hn)
  exact ⟨h.frame_eq, h.sound, h.metadata_eq, hmax⟩

theorem size_eraseIdx_pos {s : Shape} (h : 0 < s.size) (a : Nat) : 0 < size (s.eraseIdx a) :=
  size_pos fun _ hn => pos_of_mem h (mem_of_mem_eraseIdx hn)

section Fresh

variable {s : Shape} {n : Nat} (h : d.Fresh .double s n) (hpos : 0 < s.size) (ha : a < s.length)
include h hpos ha

/-- The slices of packed items are read in words. -/
theorem Fresh.slicesInWords : d.SlicesInWords a := by
  obtain rfl := h.shape_eq
  have hget : (d.shape : List Nat)[a]? = some (d.shape.getD a 0) := by
    simp [getElem?_eq_getElem ha]
  have hsmall : ∀ k ∈ d.shape, k < half := fun k hk => h.sound.inside.lt_half hpos hk
  have hreads (i : Nat) (hi : i < d.shape.getD a 0) : d.ReadsInWords (.atIndex d.shape a i) := by
    have hvalid := valid_ofSlices (ofSlices_slicesAt hsmall hget hi)
    have hsteps : (Region.atIndex d.shape a i).StepsWithin d.shape :=
      atIndex_eq_band .. ▸ stepsWithin_band hi
    refine (Frame.Sound.readsInWords_iff_of_pos h.sound hvalid rfl ?_).mpr
      (h.allFit_walkNumbers_slice hvalid rfl fun _ => hsteps)
    rw [Region.size, shape_atIndex]
    refine size_pos fun k hk => ?_
    rcases mem_or_eq_of_mem_set hk with hmem | rfl
    · exact pos_of_mem hpos hmem
    · exact Nat.one_pos
  have hfirst := hreads 0 (pos_of_mem hpos (mem_of_getElem? hget))
  refine ⟨shape_atIndex d.shape a 0 ▸ hfirst.packed, fun i hi => ?_⟩
  have hread := hreads i hi
  exact ⟨hread.own, hread.size, hread.strides, hread.walk⟩

/-- Runs of packed items are folded in words. -/
theorem Fresh.foldsInWords : d.FoldsInWords a := by
  obtain rfl := h.shape_eq
  obtain rfl := h.itemSize_eq
  have hsound : d.toFrame.Sound (d.shape.size * d.itemSize) := by
    have hpacked := @Frame.sound_packed .double d.name d.shape d.itemSize h.itemSize_pos
      (bytes_mul_lt h.few)
    rwa [← h.frame_eq] at hpacked
  have hmax : 2 * maxElements ≤ half := by decide
  have hfew := h.few
  exact Frame.foldsInWords_of_room h.itemSize_pos ha (Frame.Sound.room_lt h.sound hpos)
    (hsound.allFit_walkNumbers_permuted_of_dense (Frame.orders_last ha) h.layout_eq hpos (by omega))

end Fresh

end Dataset

/-! ## One axis -/

/-- The slices along an axis can be added up: there is room for doubles without the axis, and there
are no slices, or every length is a signed word. -/
structure Shape.Reducible (s : Shape) (itemSize a : Nat) : Prop where
  room : ∃ n, reserve .double (s.eraseIdx a) itemSize = .ok n
  slices : s.getD a 0 = 0 ∨ ∀ n ∈ s, n < Word.half

namespace Source

variable {σ : Type}

/-- A reduction slice by slice, which leaves the state, and one of the whole have the same values,
unless they are stopped at a number that is no word. Where there are items, each is stopped just if
its condition fails. -/
def Agrees (lazily : Task σ Block) (whole : Except Error Block) (state : σ)
    (items readable foldable : Prop) [Decidable readable] [Decidable foldable] : Prop :=
  ∃ x y z, x.SameValues y ∧ lazily.run state = (z, state) ∧
    Word.Follows z (.ok x) ∧ Word.Follows whole (.ok y) ∧
    (items → z = (do Word.ensure readable; .ok x) ∧ whole = (do Word.ensure foldable; .ok y))

/-- A reduction along an axis agrees with one of the whole, if the slices can be added up. Both
refuse what is no axis. -/
structure AgreesAlong (lazily : Int → Task σ Block) (whole : Int → Except Error Block) (d : Block)
    (state : σ) : Prop where
  refused : ∀ axis err, Shape.normalizeAxis axis d.rank = .error err →
    (lazily axis).run state = (.error err, state) ∧ whole axis = .error err
  agrees : ∀ axis a, Shape.normalizeAxis axis d.rank = .ok a → d.shape.Reducible d.itemSize a →
    Agrees (lazily axis) (whole axis) state True (d.SlicesInWords a) (d.FoldsInWords a)

variable {src : Source σ} {d e : Block} {state : σ} {a n : Nat}

/-- **A reduction along an axis, slice by slice, agrees with the fold of the whole.** -/
theorem Shows.agreesAlong (h : src.Shows d state) (hd : d.Sound) (hmeta : d.metadata = .empty)
    (init : Float) (op : BinaryOp) :
    AgreesAlong (src.accumulate · init op) (d.foldAxisInWords · init op.onFloats) d state where
  refused axis err haxis := by
    constructor
    · rw [accumulate, run_bind, run_lift, h.rank_eq, haxis, andThen_error]
    · rw [foldAxisInWords, checkFold, haxis]
      rfl
  agrees axis a haxis hred := by
    obtain ⟨n, hn⟩ := hred.room
    obtain ⟨x, hx, hxfold⟩ : ∃ x : Block, (src.accumulate axis init op).run state =
        ((do ensure (d.SlicesInWords a); .ok x), state) ∧ x.FoldOf d a init op.onFloats :=
      h.accumulate_eq hd hmeta haxis hred.slices hn
    have hcount := reserve_eq_ok hn
    have hy : d.foldAxisInWords axis init op.onFloats = (do
        ensure (d.FoldsInWords a)
        .ok (d.foldedAlong a init op.onFloats)) := hd.foldAxisInWords_eq hmeta haxis hcount
    have hsame := hxfold.sameItems (hd.foldOf_foldedAlong hcount) (.refl d) (normalizeAxis_lt haxis)
    exact ⟨x, _, _, hsame.sameValues, hx, follows_ensure _ _, hy ▸ follows_ensure _ _,
      fun _ => ⟨rfl, hy⟩⟩

end Source

/-! ## Several axes -/

/-- The sums along several axes in words, one after the other, of which as many as `gone` have gone
before. Each axis has moved down by the number of those before it. -/
def Dataset.sumOver (d : Block) (axes : List Nat) (gone : Nat) : Except Error Block :=
  (axes.zipIdx gone).foldlM
    (fun e axis => e.foldAxisInWords ((axis.1 - axis.2 : Nat) : Int) 0.0 (· + ·)) d

namespace Shape

variable {rank : Nat} {axes : List Int} {named : List Nat}

/-- What holds of every axis and the shape that it goes from, as axes go one after the other and
`gone` have gone before. -/
def Along (P : Shape → Nat → Prop) : Nat → Shape → List Nat → Prop
  | _, _, [] => True
  | gone, s, a :: axes => P s (a - gone) ∧ Along P (gone + 1) (s.eraseIdx (a - gone)) axes

theorem Along.imp {P Q : Shape → Nat → Prop} {s : Shape} {gone : Nat} {axes : List Nat}
    (h : Along P gone s axes) (hPQ : ∀ t : Shape, t ⊆ s → ∀ a, P t a → Q t a) :
    Along Q gone s axes := by
  induction axes generalizing gone s with
  | nil => trivial
  | cons a axes ih =>
    refine ⟨hPQ s (Subset.refl s) _ h.1, ih h.2 fun t ht => hPQ t ?_⟩
    exact Subset.trans ht (eraseIdx_sublist ..).subset

/-- Increasing axes of a shape, of which as many as `gone` have gone before, along which the slices
can be added up one after the other. -/
structure Sheds (s : Shape) (itemSize gone : Nat) (axes : List Nat) : Prop where
  bounds : ∀ a ∈ axes, gone ≤ a ∧ a < gone + s.length
  increasing : axes.Pairwise (· < ·)
  reducible : Along (Reducible · itemSize) gone s axes

section Sheds

variable {s : Shape} {itemSize gone a : Nat} {axes : List Nat}

theorem Sheds.lt (h : s.Sheds itemSize gone (a :: axes)) : a - gone < s.length := by
  have := h.bounds a mem_cons_self
  omega

theorem Sheds.tail (h : s.Sheds itemSize gone (a :: axes)) :
    Sheds (s.eraseIdx (a - gone)) itemSize (gone + 1) axes := by
  obtain ⟨hfirst, hrest⟩ := pairwise_cons.mp h.increasing
  refine ⟨fun b hb => ?_, hrest, h.reducible.2⟩
  have hhead := h.bounds a mem_cons_self
  have hbounds := h.bounds b (mem_cons_of_mem _ hb)
  have hab := hfirst b hb
  rw [length_eraseIdx_of_lt h.lt]
  omega

end Sheds

/-- Names are added to those that were seen, as long as they stand for axes that were not. -/
theorem foldlM_distinct {seen : List Nat} {axisOf : Int → Except Error Nat} (hseen : seen.Nodup) :
    axes.foldlM (fun seen axis => do
        let a ← axisOf axis
        if a ∈ seen then .error (.invalidAxis axis rank) else .ok (seen ++ [a])) seen = .ok named ↔
      ∃ rest, named = seen ++ rest ∧ named.Nodup ∧
        Forall₂ (fun axis a => axisOf axis = .ok a) axes rest := by
  induction axes generalizing seen with
  | nil =>
    rw [foldlM_nil, pure_eq_ok]
    constructor
    · rintro rfl
      exact ⟨[], (append_nil _).symm, hseen, .nil⟩
    · rintro ⟨rest, rfl, -, hrest⟩
      cases hrest
      rw [append_nil]
  | cons axis axes ih =>
    rw [foldlM_cons]
    simp only [bind_eq_ok]
    constructor
    · rintro ⟨next, ⟨a, ha, hnext⟩, hrest⟩
      split at hnext
      · cases hnext
      · rename_i hnew
        cases hnext
        have hnodup : (seen ++ [a]).Nodup := by
          rw [nodup_append]
          simpa [hseen] using fun b hb (heq : b = a) => hnew (heq ▸ hb)
        obtain ⟨rest, rfl, hnamed, hforall⟩ := (ih hnodup).mp hrest
        exact ⟨a :: rest, by simp, hnamed, .cons ha hforall⟩
    · rintro ⟨rest, rfl, hnamed, hforall⟩
      cases hforall with
      | @cons _ a _ rest ha hforall =>
        have happend : seen ++ a :: rest = seen ++ [a] ++ rest := by simp
        have hnodup : (seen ++ [a]).Nodup := (nodup_append.mp (happend ▸ hnamed)).1
        have hnew : a ∉ seen := by
          intro hmem
          exact (nodup_append.mp hnodup).2.2 a hmem a mem_cons_self rfl
        exact ⟨seen ++ [a], ⟨a, ha, if_neg hnew⟩, (ih hnodup).mpr ⟨rest, happend, hnamed, hforall⟩⟩

theorem distinctAxes_eq_ok
    {axisOf : Int → Except Error Nat} : distinctAxes axisOf rank axes = .ok named ↔
      Forall₂ (fun axis a => axisOf axis = .ok a) axes named ∧ named.Nodup := by
  rw [distinctAxes, foldlM_distinct nodup_nil]
  constructor
  · rintro ⟨rest, rfl, hnodup, hrest⟩
    exact ⟨hrest, hnodup⟩
  · rintro ⟨hrest, hnodup⟩
    exact ⟨named, rfl, hnodup, hrest⟩

/-- Names of different axes stand for different axes in every order. -/
theorem normalizeAxes_perm {axes' : List Int}
    (h : normalizeAxes axes rank = .ok named) (hperm : axes'.Perm axes) :
    ∃ named', normalizeAxes axes' rank = .ok named' ∧ named'.Perm named := by
  obtain ⟨hforall, hnodup⟩ := distinctAxes_eq_ok.mp h
  obtain ⟨named', hforall', hnamed⟩ := perm_comp_forall₂ hperm hforall
  exact ⟨named', distinctAxes_eq_ok.mpr ⟨hforall', hnamed.nodup_iff.mpr hnodup⟩, hnamed⟩

end Shape

/-- Where there are items, all that counts is room. -/
theorem Dataset.Sound.reducible {d : Block} (hd : d.Sound) (hsize : 0 < d.size) {axes : List Nat}
    (hroom : Along (fun s a => ∃ n, reserve .double (s.eraseIdx a) d.itemSize = .ok n) 0 d.shape
      axes) : Along (Reducible · d.itemSize) 0 d.shape axes :=
  hroom.imp fun _ ht _ h => ⟨h, .inr fun _ hn => hd.inside.lt_half hsize (ht hn)⟩

namespace Source

variable {named : List Nat}

variable {σ : Type} {src : Source σ} {d e : Block} {state : σ} {axes : List Int}

theorem summedAxes_eq_ok {rank : Nat} (h : normalizeAxes axes rank = .ok named) (ignore : Bool) :
    summedAxes rank ignore axes =
      .ok ((List.range rank).filter fun a => decide (a ∈ named) != ignore) := by
  simp only [summedAxes, h, bind_eq_ok]
  exact ⟨named, rfl, rfl⟩

theorem sumAxes_congr {ignore ignore' : Bool} {axes' : List Int} {named' : List Nat}
    (h : Shape.normalizeAxes axes src.rank = .ok named)
    (h' : Shape.normalizeAxes axes' src.rank = .ok named')
    (hsame : ∀ a < src.rank, (decide (a ∈ named) != ignore) = (decide (a ∈ named') != ignore')) :
    src.sumAxes ignore axes = src.sumAxes ignore' axes' := by
  have hfilter : ((List.range src.rank).filter fun a => decide (a ∈ named) != ignore) =
      (List.range src.rank).filter fun a => decide (a ∈ named') != ignore' :=
    filter_congr fun a ha => hsame a (mem_range.mp ha)
  rw [sumAxes, sumAxes, summedAxes_eq_ok h, summedAxes_eq_ok h', hfilter]

/-- **One more axis.** What agrees on the sums along an axis agrees after them. -/
theorem Shows.agrees_bind {a : Nat} {lazily : Block → Task σ Block}
    {whole : Block → Except Error Block} (h : src.Shows d state) (hd : d.Sound)
    (hmeta : d.metadata = .empty) (he : e.Sound) (hemeta : e.metadata = .empty)
    (hsame : d.SameItems e) (ha : a < d.shape.length) (hred : d.shape.Reducible d.itemSize a)
    (hrest : ∀ x y : Block, x.FoldOf d a 0.0 (· + ·) → y.FoldOf e a 0.0 (· + ·) → x.SameItems y →
      Agrees (lazily x) (whole y) state (0 < d.size) True True) :
    Agrees (src.sum a >>= lazily) (e.foldAxisInWords a 0.0 (· + ·) >>= whole) state (0 < d.size)
      (d.SlicesInWords a) (e.FoldsInWords a) := by
  have haxis : normalizeAxis a d.rank = .ok a := normalizeAxis_natCast ha
  have ha' : a < e.shape.length := hsame.shape_eq ▸ ha
  obtain ⟨n, hn⟩ := hred.room
  have hcount : elementCount (e.shape.eraseIdx a) e.itemSize = .ok n := by
    rw [← hsame.shape_eq, ← hsame.itemSize_eq]
    exact reserve_eq_ok hn
  obtain ⟨x, hx, hxfold⟩ : ∃ x : Block, (src.sum a).run state =
      ((do ensure (d.SlicesInWords a); .ok x), state) ∧ x.FoldOf d a 0.0 (· + ·) :=
    h.accumulate_eq hd hmeta haxis hred.slices hn
  have hy : e.foldAxisInWords a 0.0 (· + ·) = (do
      ensure (e.FoldsInWords a)
      .ok (e.foldedAlong a 0.0 (· + ·))) :=
    he.foldAxisInWords_eq hemeta (normalizeAxis_natCast ha') hcount
  have hyfold : (e.foldedAlong a 0.0 (· + ·)).FoldOf e a 0.0 (· + ·) :=
    he.foldOf_foldedAlong hcount
  obtain ⟨x', y', z, hvalues, hrun, hz, hw, hitems⟩ :=
    hrest x _ hxfold hyfold (hxfold.sameItems hyfold hsame ha)
  refine ⟨x', y', (do ensure (d.SlicesInWords a); z), hvalues, ?_, ?_, ?_, fun hpos => ?_⟩
  · rw [run_bind, hx]
    by_cases hslices : d.SlicesInWords a
    · rw [ensure_of hslices]
      exact hrun
    · rw [ensure_of_not hslices]
      rfl
  · exact hz.after_ensure _
  · rw [hy, bind_assoc]
    exact hw.after_ensure _
  · obtain ⟨hz, hw⟩ := hitems hpos
    rw [hy, bind_assoc, ok_bind, hz, hw]
    exact ⟨rfl, rfl⟩

/-- **Sums over the other axes agree with those along one axis after the other.** -/
theorem agrees_sumRest {gone n : Nat} {axes : List Nat} {s : Shape} (hd : d.Fresh .double s n)
    (he : e.Fresh .double s n) (hsame : d.SameItems e) (h : s.Sheds n gone axes) :
    Agrees (sumRest gone d axes) (e.sumOver axes gone) state (0 < s.size) True True := by
  induction axes generalizing gone s d e with
  | nil =>
    exact ⟨d, e, .ok d, hsame.sameValues, rfl, .inl rfl, .inl rfl, fun _ => ⟨rfl, rfl⟩⟩
  | cons a axes ih =>
    obtain rfl := hd.shape_eq
    obtain rfl := hd.itemSize_eq
    have hrest (x y : Block) (hx : x.FoldOf d (a - gone) 0.0 (· + ·))
        (hy : y.FoldOf e (a - gone) 0.0 (· + ·)) (hxy : x.SameItems y) :
        Agrees (sumRest (gone + 1) x axes) (y.sumOver axes (gone + 1)) state (0 < d.size) True
          True := by
      have hroom := h.reducible.1.room
      have hyfresh : y.Fresh .double (d.shape.eraseIdx (a - gone)) d.itemSize := by
        have hshape : e.shape = d.shape := he.shape_eq
        have hitem : e.itemSize = d.itemSize := he.itemSize_eq
        rw [← hshape, ← hitem] at hroom ⊢
        exact hy.fresh hroom
      obtain ⟨x', y', z, hvalues, hrun, hz, hw, hitems⟩ := ih (hx.fresh hroom) hyfresh hxy h.tail
      exact ⟨x', y', z, hvalues, hrun, hz, hw, fun hpos => hitems (size_eraseIdx_pos hpos _)⟩
    obtain ⟨x, y, z, hvalues, hrun, hz, hw, hitems⟩ :=
      (hd.sound.shows_sourceInWords hd.metadata_eq state).agrees_bind hd.sound hd.metadata_eq
        he.sound he.metadata_eq hsame h.lt h.reducible.1 hrest
    refine ⟨x, y, z, hvalues, hrun, hz, hw, fun hpos => ?_⟩
    obtain ⟨hz, hw⟩ := hitems hpos
    rw [ensure_of (hd.slicesInWords hpos h.lt)] at hz
    rw [ensure_of (he.foldsInWords hpos h.lt)] at hw
    exact ⟨hz, hw⟩

/-- **Sums over several axes agree with those along one axis after the other.** -/
theorem Shows.agrees_sumAxes {a : Nat} {rest : List Nat} (h : src.Shows d state) (hd : d.Sound)
    (hmeta : d.metadata = .empty) (hnamed : Shape.normalizeAxes axes d.rank = .ok named)
    (hsummed : a :: rest = (List.range d.rank).filter (· ∈ named))
    (hred : Shape.Along (Shape.Reducible · d.itemSize) 0 d.shape (a :: rest)) :
    Agrees (src.sumAxes false axes) (d.sumOver (a :: rest) 0) state (0 < d.size)
      (d.SlicesInWords a) (d.FoldsInWords a) := by
  have hsheds : d.shape.Sheds d.itemSize 0 (a :: rest) := by
    refine ⟨fun a ha => ?_, ?_, hred⟩
    · rw [hsummed, List.mem_filter, List.mem_range] at ha
      exact ⟨Nat.zero_le a, by rw [Nat.zero_add]; exact ha.1⟩
    · rw [hsummed]
      exact List.pairwise_lt_range.filter _
  have haxes : summedAxes src.rank false axes = .ok (a :: rest) := by
    rw [h.rank_eq, hsummed, summedAxes_eq_ok hnamed]
    simp
  have hrun : (src.sumAxes false axes).run state =
      (src.sum a >>= fun x => sumRest 1 x rest).run state := by
    rw [sumAxes, run_bind, run_lift, haxes, andThen_ok]
  rw [Agrees, hrun]
  refine h.agrees_bind hd hmeta hd hmeta (.refl d) hsheds.lt hsheds.reducible.1 ?_
  intro x y hx hy hxy
  obtain ⟨x', y', z, hvalues, hrun, hz, hw, hitems⟩ :=
    agrees_sumRest (hx.fresh hsheds.reducible.1.room) (hy.fresh hsheds.reducible.1.room) hxy
      hsheds.tail
  exact ⟨x', y', z, hvalues, hrun, hz, hw, fun hpos => hitems (size_eraseIdx_pos hpos _)⟩

theorem Shows.sumAxes_nil {n : Nat} (h : src.Shows d state) (hd : d.Sound)
    (hmeta : d.metadata = .empty) (hreserve : reserve .double d.shape d.itemSize = .ok n) :
    ∃ x : Block, (src.sumAxes false []).run state =
        ((do ensure (d.LoadsInWords (full d.shape)); .ok x), state) ∧
      x.SameValues (d.cast .double) := by
  have hvalid := valid_full d.shape
  have hroom : ∃ c, reserve d.kind (full d.shape).shape d.itemSize = .ok c := by
    rw [shape_full]
    exact reserve_of_double hreserve
  obtain ⟨part, hpart, -, hkind, hshape, hitemSize, hitem⟩ := hd.exists_slice hvalid rfl hmeta hroom
  rw [shape_full] at hshape hitem
  have hsame : part.SameItems d := by
    refine ⟨hkind, hshape, hitemSize, fun p hp => ?_⟩
    rw [hshape] at hp
    have hsmall : ∀ n ∈ d.shape, n ≤ modulus :=
      fun n hn => hd.inside.small (size_pos_of_contains hp) hn
    rw [hitem p hp, sourcePosition_full hsmall hp]
  have haxes : summedAxes src.rank false [] = .ok [] := by
    have hnone : Shape.normalizeAxes [] src.rank = .ok [] := rfl
    rw [summedAxes_eq_ok hnone]
    simp
  refine ⟨part.cast .double, ?_, hsame.sameValues.cast .double⟩
  rw [sumAxes, run_bind, run_lift, haxes, andThen_ok, h.shape_eq, run_bind,
    h.read_eq _ hvalid rfl hroom, hpart]
  by_cases hloads : d.LoadsInWords (full d.shape)
  · rw [ensure_of hloads]
    rfl
  · rw [ensure_of_not hloads]
    rfl

/-! ## Agreement -/

/-- The reductions of a source agree in words with those of a dataset in memory, where the slices
can be added up: sums and products along an axis, and sums over several axes, which depend neither
on the order of their names nor on whether they are named or the others are. -/
structure Reduces (src : Source σ) (d : Block) (state : σ) : Prop where
  sum : AgreesAlong src.sum (d.foldAxisInWords · 0.0 (· + ·)) d state
  product : AgreesAlong src.product (d.foldAxisInWords · 1.0 (· * ·)) d state
  sumAxes : ∀ axes named a rest, Shape.normalizeAxes axes d.rank = .ok named →
    a :: rest = (List.range d.rank).filter (· ∈ named) →
    Shape.Along (Shape.Reducible · d.itemSize) 0 d.shape (a :: rest) →
    Agrees (src.sumAxes false axes) (d.sumOver (a :: rest) 0) state (0 < d.size)
      (d.SlicesInWords a) (d.FoldsInWords a)
  sumAxes_nil : ∀ n, reserve .double d.shape d.itemSize = .ok n →
    ∃ x : Block, (src.sumAxes false []).run state =
        ((do Word.ensure (d.LoadsInWords (Region.full d.shape)); .ok x), state) ∧
      x.SameValues (d.cast .double)
  sumAxes_perm : ∀ axes axes' named, Shape.normalizeAxes axes d.rank = .ok named →
    axes'.Perm axes → src.sumAxes false axes' = src.sumAxes false axes
  sumAxes_others : ∀ axes others named rest, Shape.normalizeAxes axes d.rank = .ok named →
    Shape.normalizeAxes others d.rank = .ok rest → (∀ a < d.rank, a ∈ rest ↔ a ∉ named) →
    src.sumAxes true others = src.sumAxes false axes

theorem Shows.reduces (h : src.Shows d state) (hd : d.Sound) (hmeta : d.metadata = .empty) :
    src.Reduces d state where
  sum := h.agreesAlong hd hmeta 0.0 .add
  product := h.agreesAlong hd hmeta 1.0 .multiply
  sumAxes _ _ _ _ := h.agrees_sumAxes hd hmeta
  sumAxes_nil _ := h.sumAxes_nil hd hmeta
  sumAxes_perm axes axes' named hnamed hperm := by
    obtain ⟨named', hnamed', hsame⟩ := normalizeAxes_perm hnamed hperm
    rw [← h.rank_eq] at hnamed hnamed'
    exact sumAxes_congr hnamed' hnamed fun a _ => by simp [hsame.mem_iff]
  sumAxes_others axes others named rest hnamed hrest hothers := by
    rw [← h.rank_eq] at hnamed hrest hothers
    exact sumAxes_congr hrest hnamed fun a ha => by simp [hothers a ha]

/-- **Reductions slice by slice agree with those of the whole dataset**, be it read in memory or
through a lazy dataset: in words, both give the same values, unless a slice is not read in words, or
a number met in folding the whole is no word. Where there are items, all slices can be found. -/
theorem reductions_agree {d : Block} (hd : d.Sound) (hmeta : d.metadata = .empty) (depot : Depot) :
    d.sourceInWords.Reduces d depot ∧
      (∃ l depot', (Lazy.ofBlockInWords d).run depot = (.ok l, depot') ∧
        l.sourceInWords.Reduces d depot') ∧
      (0 < d.size → ∀ axes,
        Shape.Along (fun s a => ∃ n, reserve .double (s.eraseIdx a) d.itemSize = .ok n) 0 d.shape
          axes → Shape.Along (Shape.Reducible · d.itemSize) 0 d.shape axes) := by
  obtain ⟨l, depot', hl, hshows⟩ := Lazy.exists_shows hd hmeta depot
  exact ⟨(hd.shows_sourceInWords hmeta depot).reduces hd hmeta,
    ⟨l, depot', hl, hshows.reduces hd hmeta⟩, fun hsize _ => hd.reducible hsize⟩

theorem reductions_agree_columns : ∃ (v x y x' y' : Block) (l : Lazy Depot) (depot : Depot),
    rows.sliceView outerColumns = .ok v ∧ (Lazy.ofBlockInWords v).run .empty = (.ok l, depot) ∧
      v.foldAxisInWords 1 0.0 (· + ·) = .ok y ∧
      (l.sourceInWords.sum 1).run depot = (.ok x, depot) ∧ x.SameValues y ∧
      v.sumOver [0, 1] 0 = .ok y' ∧
      (l.sourceInWords.sumAxes false [1, 0]).run depot = (.ok x', depot) ∧ x'.SameValues y' := by
  obtain ⟨v, hv, hshape, hitemSize, hmeta, hsound, hsize, hslices, hfolds, hslices', hfolds'⟩ :
      ∃ v, rows.sliceView outerColumns = .ok v ∧ v.shape = [2, 2] ∧ v.itemSize = 1 ∧
        v.metadata = .empty ∧ v.Sound ∧ 0 < v.size ∧ v.SlicesInWords 1 ∧ v.FoldsInWords 1 ∧
        v.SlicesInWords 0 ∧ v.FoldsInWords 0 :=
    ⟨_, rfl, rfl, rfl, rfl, by decide +kernel, by decide, by decide, by decide, by decide, by decide⟩
  have hrank : v.rank = 2 := congrArg List.length hshape
  obtain ⟨-, ⟨l, depot, hl, hreduces⟩, hreducible⟩ := reductions_agree hsound hmeta .empty
  have hboth := hreducible hsize [0, 1] (by
    rw [hshape, hitemSize]
    exact ⟨⟨2, rfl⟩, ⟨1, rfl⟩, trivial⟩)
  have hlast := hreducible hsize [1] (by
    rw [hshape, hitemSize]
    exact ⟨⟨2, rfl⟩, trivial⟩)
  obtain ⟨x, y, _, hxy, hx, -, -, hwords⟩ :=
    hreduces.sum.agrees 1 1 (by rw [hrank]; rfl) hlast.1
  obtain ⟨x', y', _, hxy', hx', -, -, hwords'⟩ :=
    hreduces.sumAxes [1, 0] [1, 0] 0 [1] (by rw [hrank]; rfl) (by rw [hrank]; rfl) hboth
  obtain ⟨rfl, hy⟩ := hwords trivial
  obtain ⟨rfl, hy'⟩ := hwords' hsize
  rw [Word.ensure_of hslices] at hx
  rw [Word.ensure_of hfolds] at hy
  rw [Word.ensure_of hslices'] at hx'
  rw [Word.ensure_of hfolds'] at hy'
  exact ⟨v, x, y, x', y', l, depot, hv, hl, hy, hx, hxy, hy', hx', hxy'⟩

/-- No items, on axes of which one is as long as half of the words. -/
def emptySlab : Block := Dataset.ofList (.int true .w32) [0, 1, Word.half] 1 []

/-- An axis that is too long stops the lazy sums alone. -/
theorem long_axis_stops_lazy_sum : ∃ (y : Block) (l : Lazy Depot) (depot depot' : Depot)
    (err err' : Error),
    emptySlab.foldAxisInWords 1 0.0 (· + ·) = .ok y ∧ y.shape = [0, Word.half] ∧
      (emptySlab.sourceInWords.sum 1).run () = (.error err, ()) ∧
      (Lazy.ofBlockInWords emptySlab).run .empty = (.ok l, depot) ∧
      (l.sourceInWords.sum 1).run depot = (.error err', depot') := by
  with_unfolding_all exact ⟨_, _, _, _, _, _, rfl, rfl, rfl, rfl, rfl⟩

end Source

end Hyperslab
