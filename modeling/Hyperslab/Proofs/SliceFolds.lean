import Hyperslab.Lazy.Reduction
import Hyperslab.Proofs.AxisFolds
import Hyperslab.Proofs.Joins

/-!
# Folds slice by slice

A lazy reduction reads the slices along an axis one by one and combines each of them with a running
total in place. The total of all slices, without the axis, is the fold of the whole dataset along
the axis, value for value: both combine the same items in the same order. It is given just if every
slice is read in words.
-/
namespace Hyperslab

open List Permutation Shape Word

variable {d : Block} {s : Shape} {a : Nat}

/-! ## One index of an axis -/

namespace Region

variable {s : Shape} {a i n : Nat}

/-- The region of one index of an axis and of all of the others. -/
def atIndex (s : Shape) (a i : Nat) : Region :=
  ⟨s, none, (s.map Span.full).set a ⟨i, i + 1, 1, 1⟩, false, .none⟩

@[simp] theorem shape_atIndex (s : Shape) (a i : Nat) : (atIndex s a i).shape = s.set a 1 := by
  simp [atIndex, shape, Function.comp_def, Span.full]

theorem atIndex_eq_band (s : Shape) (a i : Nat) : atIndex s a i = band s a i (i + 1) := by
  simp [atIndex, band]

section

variable (hsmall : ∀ m ∈ s, m < half) (ha : (s : List Nat)[a]? = some n) (hi : i < n)
include hsmall ha hi

theorem ofSlices_slicesAt : ofSlices s (Source.slicesAt s.length a i) = .ok (atIndex s a i) := by
  have hall (t : Shape) (ht : ∀ m ∈ t, m < half) :
      Forall₂ (fun (x : Slice × Nat) span => x.1.resolve x.2 x.2 = .ok span)
        ((replicate t.length Slice.all).zip t) (t.map Span.full) := by
    induction t with
    | nil => exact .nil
    | cons m t ih =>
      exact .cons (Slice.resolve_all (ht m mem_cons_self))
        (ih fun k hk => ht k (mem_cons_of_mem _ hk))
  refine ofSlices_of_resolve (by simp [Source.slicesAt]) ?_
  induction s generalizing a with
  | nil => simp at ha
  | cons m s ih =>
    have hs : ∀ k ∈ s, k < half := fun k hk => hsmall k (mem_cons_of_mem _ hk)
    have hm : m < half := hsmall m mem_cons_self
    cases a with
    | zero =>
      simp only [getElem?_cons_zero, Option.some.injEq] at ha
      exact .cons (Slice.resolve_index (ha ▸ hi) hm) (hall s hs)
    | succ a => exact .cons (Slice.resolve_all hm) (ih hs ha)

theorem sourcePosition_atIndex {p : Position}
    (hp : Shape.contains (s.set a 1) p) : (atIndex s a i).sourcePosition p = p.set a i := by
  have hmodulus : half ≤ modulus := by decide
  have halt : a < s.length := (List.getElem?_eq_some_iff.mp ha).1
  have hn : s.getD a 0 = n := by simp [ha]
  have hfirst : p.getD a 0 < 1 :=
    (getD_lt_of_contains hp (by simpa using halt)).trans_eq (getD_set_self halt)
  rw [atIndex_eq_band, sourcePosition_band (fun k hk => ((hsmall k hk).trans_le hmodulus).le)
    (hn.symm ▸ hi) (by rwa [Nat.add_sub_cancel_left]), set_eq_modify]
  exact Position.modify_congr (by omega)

end

end Region

/-! ## Reading -/

/-- A region of a dataset with nothing attached, as a dataset of its own. -/
theorem Dataset.Sound.exists_slice {r : Region} (h : d.Sound) (hr : r.Valid)
    (hsource : r.source = d.shape) (hmeta : d.metadata = .empty)
    (hreserve : ∃ n, reserve d.kind r.shape d.itemSize = .ok n) :
    ∃ part, d.slice r = .ok part ∧ part.Sound ∧ part.kind = d.kind ∧ part.shape = r.shape ∧
      part.itemSize = d.itemSize ∧
      ∀ p, r.shape.contains p → part.item p = d.item (r.sourcePosition p) := by
  obtain ⟨n, hn⟩ := hreserve
  obtain ⟨rfl, hmax⟩ := elementCount_eq_ok (reserve_eq_ok hn)
  have hlength : ∀ p, r.shape.contains p →
      (d.item (r.sourcePosition p)).length = d.itemSize := fun p _ => length_item ..
  have hbytes : d.kind.bytes * (r.shape.size * d.itemSize) < half := bytes_mul_lt hmax
  exact ⟨_, h.slice_eq hr hsource hmeta hn, sound_ofItems h.itemSize_pos hlength hbytes, rfl, rfl,
    rfl, fun p hp => item_ofItems h.itemSize_pos hlength hbytes hp⟩

/-- What is read of the source in a state is read of the dataset in words, and leaves the state. -/
structure Source.Shows {σ : Type} (src : Source σ) (d : Block) (state : σ) : Prop where
  shape_eq : src.shape = d.shape
  itemSize_eq : src.itemSize = d.itemSize
  read_eq : ∀ r : Region, r.Valid → r.source = d.shape →
    (∃ n, reserve d.kind r.shape d.itemSize = .ok n) →
      (src.read r).run state = ((do Word.ensure (d.LoadsInWords r); d.slice r), state)

theorem Source.Shows.rank_eq {σ : Type} {src : Source σ} {state : σ}
    (h : src.Shows d state) : src.rank = d.rank := congrArg List.length h.shape_eq

theorem Dataset.Sound.shows_sourceInWords {σ : Type} (hd : d.Sound) (hmeta : d.metadata = .empty)
    (state : σ) : (d.sourceInWords).Shows d state :=
  ⟨rfl, rfl, fun _ hr hsource hroom =>
    Prod.ext (hd.sliceInWords_eq hmeta hr hsource hroom.choose_spec) rfl⟩

/-! ## An axis of one position -/

theorem Shape.sizeChecked_set (ha : a < s.length) :
    sizeChecked (s.set a 1) = sizeChecked (s.eraseIdx a) := by
  have hsqueeze : squeeze (s.set a 1) = squeeze (s.eraseIdx a) := by
    induction s generalizing a with
    | nil => simp at ha
    | cons d s ih =>
      cases a with
      | zero => simp [squeeze]
      | succ a =>
        have hrest := ih (by simpa using ha)
        simp only [squeeze] at hrest
        simp only [squeeze, set_cons_succ, eraseIdx_cons_succ, filter_cons, hrest]
  rw [← sizeChecked_squeeze, hsqueeze, sizeChecked_squeeze]

/-- A position without an axis has the number of the one with the coordinate 0 on an axis of one
position. -/
theorem Shape.unravel_ravel_eraseIdx (ha : a < s.length) {q : Position}
    (hq : contains (s.eraseIdx a) q) : contains (s.set a 1) (q.insertIdx a 0) ∧
      unravel (ravel (s.eraseIdx a) q) (s.set a 1) = q.insertIdx a 0 := by
  have hplace : a ≤ (s.eraseIdx a).length := by
    rw [length_eraseIdx_of_lt ha]
    omega
  have hones : (s.eraseIdx a).insertIdx a 1 = s.set a 1 := insertIdx_eraseIdx_self ha.ne 1
  have hcontains : contains (s.set a 1) (q.insertIdx a 0) := by
    refine contains_insertIdx ?_ Nat.one_pos ?_
    · rw [getElem?_set_self ha]
    · rwa [eraseIdx_set_eq]
  refine ⟨hcontains, ?_⟩
  rw [← ravel_insertIdx hq hplace, hones, unravel_ravel hcontains]

theorem reserve_of_double {k : Kind} {n m : Nat} (h : reserve .double s n = .ok m) :
    ∃ m, reserve k s n = .ok m := by
  obtain ⟨c, hc, hmax, hbytes, -⟩ := reserve_eq_ok_iff.mp h
  have hkind : c * n * k.bytes ≤ c * n * Kind.double.bytes := Nat.mul_le_mul_left _ k.bytes_le
  exact ⟨c * n, reserve_eq_ok_iff.mpr ⟨c, hc, hmax, hkind.trans hbytes, rfl⟩⟩

theorem reserve_set {k : Kind} {n m : Nat} (ha : a < s.length)
    (h : reserve .double (s.eraseIdx a) n = .ok m) : ∃ m, reserve k (s.set a 1) n = .ok m := by
  obtain ⟨c, hc, hmax, hbytes, -⟩ := reserve_eq_ok_iff.mp h
  refine reserve_of_double (reserve_eq_ok_iff.mpr ⟨c, ?_, hmax, hbytes, rfl⟩)
  rw [sizeChecked_set ha, hc]

/-! ## The running total -/

namespace Dataset

variable {d total part : Block} {op : BinaryOp} {init : Float} {f : Float → Float → Float}
  {a i n : Nat}

theorem foldRun_concat (run : List (List Scalar)) {x : List Scalar} (hx : x.length = n) :
    (foldRun n init op.onFloats (run ++ [x])).map Scalar.double =
      op.onItems .double ((foldRun n init op.onFloats run).map Scalar.double) x := by
  refine ext_getElem (by simp [foldRun, BinaryOp.onItems, hx]) fun j hj hj' => ?_
  have hj : j < x.length := by
    simp only [foldRun, length_map, length_range] at hj
    omega
  simp [foldRun, BinaryOp.onItems, getElem?_eq_getElem hj, Kind.ofFloat, Scalar.toFloat]

theorem initial_eq {s : Shape} {m : Nat} (hn : 0 < n) (hreserve : reserve .double s n = .ok m) :
    ∃ e, Source.initial n s init = (do ensure (s.stridesFit n); .ok e) ∧
      e.toFrame = Frame.packed .double "" s n ∧ e.Sound ∧ e.metadata = .empty ∧
      ∀ p, s.contains p → e.item p = replicate n (Scalar.double init) := by
  obtain ⟨z, hz⟩ : ∃ z, fullOf .double n s Kind.double.zero = .ok z := by
    simp only [fullOf, hreserve, bind_eq_ok]
    exact ⟨_, m, rfl, rfl⟩
  have hsound : z.Sound := sound_fullOf hn hz
  have hframe : z.toFrame = Frame.packed .double "" s n ∧ z.metadata = .empty := by
    simp only [fullOf, bind_eq_ok, pure_eq_ok] at hz
    obtain ⟨_, -, rfl⟩ := hz
    exact ⟨rfl, rfl⟩
  have hsize : (Array.replicate z.buffer.elements.size (Scalar.double init)).size =
      z.buffer.size := Array.size_replicate
  refine ⟨z.modifyElements fun e => Array.replicate e.size (.double init), ?_, hframe.1, ?_, ?_,
    fun p hp => ?_⟩
  · have hzeros : zeros .double n s = .ok z := by
      simp only [zeros, bind_eq_ok, checkItemSize_eq_ok]
      exact ⟨(), hn, hz⟩
    have hwalk : z.checkWalk = ensure (s.stridesFit n) := by
      have hdense := Frame.Sound.allFit_walkNumbers_of_dense hsound (congrArg Frame.layout hframe.1)
      rw [Frame.checkWalk_eq]
      refine ensure_congr ((and_iff_left hdense).trans ?_)
      rw [hframe.1]
      exact forall_prop_of_true rfl
    have hcheck : Fault.check (z.geometry.fault? z.buffer.size) = .ok () :=
      check_eq_ok.mpr hsound.inside.fault_eq_none
    rw [Source.initial, hzeros, ok_bind, hwalk, hcheck]
    rfl
  · change z.toFrame.Sound (Array.replicate z.buffer.elements.size (Scalar.double init)).size
    rw [hsize]
    exact hsound
  · change z.metadata.onDirty = .empty
    rw [hframe.2, Metadata.onDirty_empty]
  · have hshape : z.shape = s := congrArg Frame.shape hframe.1
    have hitem : z.itemSize = n := congrArg Frame.itemSize hframe.1
    have hle := hsound.inside.indexOf_add_le (hshape ▸ hp)
    have hle : z.geometry.indexOf p + n ≤ z.buffer.elements.size := hitem ▸ hle
    change z.toFrame.item (Array.replicate z.buffer.elements.size (Scalar.double init)) p = _
    rw [Frame.item, Frame.itemAt, hitem, eq_replicate_iff]
    refine ⟨by simp, fun x hx => ?_⟩
    simp only [mem_map, mem_range] at hx
    obtain ⟨j, hj, rfl⟩ := hx
    simp [show z.geometry.indexOf p + j < z.buffer.elements.size by omega]

/-- The total of the first `i` slices along an axis: packed doubles, on the shape of one slice. -/
structure TotalOf (total d : Block) (a : Nat) (init : Float) (f : Float → Float → Float)
    (i : Nat) : Prop where
  frame_eq : total.toFrame = Frame.packed .double "" (d.shape.set a 1) d.itemSize
  sound : total.Sound
  metadata_eq : total.metadata = .empty
  item_eq : ∀ p, Shape.contains (d.shape.set a 1) p = true → total.item p =
    (foldRun d.itemSize init f ((List.range i).map fun k => d.item (p.set a k))).map .double

/-- Before the first slice, the total is made of initial values. -/
theorem exists_totalOf (hd : d.Sound)
    (hreserve : reserve .double (d.shape.set a 1) d.itemSize = .ok n) :
    ∃ total, Source.initial d.itemSize (d.shape.set a 1) init =
        (do ensure (Shape.stridesFit d.itemSize (d.shape.set a 1)); .ok total) ∧
      total.TotalOf d a init f 0 := by
  obtain ⟨total, htotal, hframe, hsound, hmeta, hitem⟩ := initial_eq hd.itemSize_pos hreserve
  refine ⟨total, htotal, hframe, hsound, hmeta, fun p hp => ?_⟩
  simp [hitem p hp, foldRun]

theorem TotalOf.applyInPlace (h : total.TotalOf d a init op.onFloats i) (hd : d.Sound)
    (hreserve : reserve .double (d.shape.set a 1) d.itemSize = .ok n) (hpart : part.Sound)
    (hshape : part.shape = d.shape.set a 1) (hitemSize : part.itemSize = d.itemSize)
    (hitem : ∀ p, Shape.contains (d.shape.set a 1) p → part.item p = d.item (p.set a i)) :
    ∃ e, Dataset.applyInPlace op total part = .ok e ∧ e.TotalOf d a init op.onFloats (i + 1) := by
  have htotal : total.shape = d.shape.set a 1 := congrArg Frame.shape h.frame_eq
  have hkind : total.kind = .double := congrArg Frame.kind h.frame_eq
  have hsize : total.itemSize = d.itemSize := by
    rw [h.frame_eq]
    rfl
  have hgeometry : total.geometry =
      (Frame.packed .double "" (d.shape.set a 1) d.itemSize).geometry :=
    congrArg Frame.geometry h.frame_eq
  have hsep : total.geometry.Separate := by
    obtain ⟨rfl, hmax⟩ := elementCount_eq_ok (reserve_eq_ok hreserve)
    rw [hgeometry]
    exact Frame.separate_packed hd.itemSize_pos (bytes_mul_lt hmax)
  obtain ⟨e, he, hframe, hsound, hmeta, hitems⟩ := h.sound.applyInPlace_eq_ok op hpart hsep
    (by rw [hkind]; rfl) (by rw [hshape, htotal]; exact Shape.fits_refl _)
    (hitemSize.trans hsize.symm) (by rw [hkind, htotal, hsize]; exact hreserve)
  refine ⟨e, he, hframe.trans h.frame_eq, hsound, ?_, fun p hp => ?_⟩
  · rw [hmeta, h.metadata_eq, Metadata.onDirty_empty]
  · have hproject : part.shape.project p = p := by
      rw [hshape]
      exact Shape.project_self hp
    rw [hitems p (htotal ▸ hp), hproject, hitem p hp, h.item_eq p hp, hkind, List.range_succ,
      List.map_append, List.map_singleton, foldRun_concat _ (length_item ..)]

/-! ## The axis that goes -/

/-- Every slice along an axis is read in words, and combined with a total whose strides are words. -/
def SlicesInWords (d : Block) (a : Nat) : Prop :=
  Shape.stridesFit d.itemSize (d.shape.set a 1) = true ∧
    ∀ i < d.shape.getD a 0, d.LoadsInWords (.atIndex d.shape a i)

instance (d : Block) (a : Nat) : Decidable (d.SlicesInWords a) :=
  inferInstanceAs (Decidable (_ ∧ ∀ i < _, _))

/-- The fold of a dataset along an axis: packed doubles on the shape without the axis. -/
structure FoldOf (e d : Block) (a : Nat) (init : Float) (f : Float → Float → Float) : Prop where
  sound : e.Sound
  metadata_eq : e.metadata = .empty
  frame_eq : e.toFrame = Frame.packed .double e.name (d.shape.eraseIdx a) d.itemSize
  item_eq : ∀ q, Shape.contains (d.shape.eraseIdx a) q = true →
    e.item q = (foldRun d.itemSize init f (d.along a q)).map .double

theorem FoldOf.shape_eq {e : Block} (h : e.FoldOf d a init f) : e.shape = d.shape.eraseIdx a :=
  congrArg Frame.shape h.frame_eq

theorem FoldOf.itemSize_eq {e : Block} (h : e.FoldOf d a init f) : e.itemSize = d.itemSize := by
  rw [h.frame_eq]
  rfl

theorem TotalOf.exists_setShape {m : Nat} (h : total.TotalOf d a init f n)
    (ha : (d.shape : List Nat)[a]? = some n)
    (hreserve : reserve .double (d.shape.eraseIdx a) d.itemSize = .ok m) :
    ∃ e, total.setShape (d.shape.eraseIdx a) = .ok e ∧ e.FoldOf d a init f := by
  have halt : a < d.shape.length := (List.getElem?_eq_some_iff.mp ha).1
  have hshape : total.shape = d.shape.set a 1 := congrArg Frame.shape h.frame_eq
  have hlength : (d.shape.eraseIdx a).length + 1 = d.shape.length := by
    rw [List.length_eraseIdx_of_lt halt]
    omega
  have hne : d.shape.eraseIdx a ≠ total.shape := by
    intro heq
    have := congrArg List.length heq
    rw [hshape, List.length_set] at this
    omega
  obtain ⟨map, hmap⟩ : ∃ map, Regrouping.of total.shape (d.shape.eraseIdx a) = .ok map := by
    obtain ⟨c, hc, -⟩ := reserve_eq_ok_iff.mp hreserve
    rw [hshape]
    simp [Regrouping.of, Shape.sizeChecked_set halt, hc]
  have hdense : total.layout = .dense := congrArg Frame.layout h.frame_eq
  have hreshape := reshape_of_dense hdense hmap
  rw [h.metadata_eq] at hreshape
  have hsound := h.sound.reshape hreshape
  refine ⟨_, setShape_of_dense hdense h.metadata_eq hmap hne, ⟨hsound.inside, hsound.listable⟩, rfl,
    ?_, fun q hq => ?_⟩
  · have hlayout : Layout.ofStrides (d.shape.eraseIdx a) total.itemSize
        (Shape.strides total.itemSize (d.shape.eraseIdx a)) = .dense := if_pos rfl
    simp only [Frame.withGeometry, hlayout]
    rw [h.frame_eq]
    rfl
  · obtain ⟨hq0, hnumber⟩ := Shape.unravel_ravel_eraseIdx halt hq
    have hrun : ((List.range n).map fun k => d.item ((q.insertIdx a 0).set a k)) = d.along a q := by
      have hgetD : d.shape.getD a 0 = n := by simp [ha]
      rw [along, hgetD]
      exact List.map_congr_left fun k _ => congrArg d.item (Position.set_insertIdx ..)
    have hitem := (h.sound.reshape_eq_ok h.metadata_eq hreshape).2.2 q hq
    rw [hshape, hnumber, h.item_eq _ hq0, hrun] at hitem
    exact hitem

end Dataset

namespace Source

variable {σ : Type} {src : Source σ} {d total : Block} {state : σ} {op : BinaryOp} {init : Float}
  {a n m : Nat}

variable (h : src.Shows d state) (hd : d.Sound) (hmeta : d.metadata = .empty)
include h hd hmeta

theorem Shows.read_atIndex
    (hsmall : ∀ k ∈ d.shape, k < Word.half) (ha : (d.shape : List Nat)[a]? = some n) {i : Nat}
    (hi : i < n) (hreserve : reserve .double (d.shape.eraseIdx a) d.itemSize = .ok m) :
    ∃ part, Region.ofSlices src.shape (slicesAt src.rank a i) = .ok (.atIndex d.shape a i) ∧
      (src.read (.atIndex d.shape a i)).run state =
        ((do ensure (d.LoadsInWords (.atIndex d.shape a i)); .ok part), state) ∧ part.Sound ∧
      part.shape = d.shape.set a 1 ∧ part.itemSize = d.itemSize ∧
      ∀ p, Shape.contains (d.shape.set a 1) p → part.item p = d.item (p.set a i) := by
  have halt : a < d.shape.length := (List.getElem?_eq_some_iff.mp ha).1
  have hslices := Region.ofSlices_slicesAt hsmall ha hi
  have hvalid := Region.valid_ofSlices hslices
  have hshape := Region.shape_atIndex d.shape a i
  have hroom : ∃ c, reserve d.kind (Region.atIndex d.shape a i).shape d.itemSize = .ok c := by
    rw [hshape]
    exact reserve_set halt hreserve
  obtain ⟨part, hpart, hsound, -, hpartShape, hitemSize, hitem⟩ :=
    hd.exists_slice hvalid rfl hmeta hroom
  refine ⟨part, ?_, ?_, hsound, hpartShape.trans hshape, hitemSize, ?_⟩
  · rw [Source.rank, h.shape_eq]
    exact hslices
  · rw [h.read_eq _ hvalid rfl hroom, hpart]
  · intro p hp
    rw [hitem p (hshape ▸ hp), Region.sourcePosition_atIndex hsmall ha hi hp]

/-- **The slices from number `i` on are combined with the total of those before them**, just if each
of them is read in words. -/
theorem Shows.accumulateFrom_eq (hsmall : n = 0 ∨ ∀ k ∈ d.shape, k < half)
    (ha : (d.shape : List Nat)[a]? = some n)
    (hreserve : reserve .double (d.shape.eraseIdx a) d.itemSize = .ok m) {i k : Nat}
    (hk : i + k = n) (htotal : total.TotalOf d a init op.onFloats i) :
    ∃ e, (src.accumulateFrom a op k i total).run state =
        ((do ensure (∀ j < k, d.LoadsInWords (.atIndex d.shape a (i + j))); .ok e), state) ∧
      e.TotalOf d a init op.onFloats n := by
  induction k generalizing i total with
  | zero =>
    obtain rfl : i = n := by omega
    exact ⟨total, by rw [ensure_of (by omega)]; rfl, htotal⟩
  | succ k ih =>
    have halt : a < d.shape.length := (List.getElem?_eq_some_iff.mp ha).1
    obtain ⟨part, hr, hread, hpart, hshape, hitemSize, hitem⟩ :=
      h.read_atIndex hd hmeta (hsmall.resolve_left (by omega)) ha (by omega : i < n) hreserve
    obtain ⟨c, hc⟩ := reserve_set halt hreserve
    obtain ⟨next, hnext, htotal⟩ := htotal.applyInPlace hd hc hpart hshape hitemSize hitem
    obtain ⟨e, he, hfinal⟩ := ih (by omega) htotal
    refine ⟨e, ?_, hfinal⟩
    rw [accumulateFrom, run_bind, run_lift, hr, andThen_ok, run_bind, hread]
    have hsplit : (∀ j < k + 1, d.LoadsInWords (.atIndex d.shape a (i + j))) ↔
        d.LoadsInWords (.atIndex d.shape a i) ∧
          ∀ j < k, d.LoadsInWords (.atIndex d.shape a (i + 1 + j)) := by
      rw [Nat.forall_lt_succ_left]
      simp only [Nat.add_zero, Nat.add_right_comm, ← Nat.add_assoc]
    rw [ensure_congr hsplit, ← ensure_and]
    by_cases hloads : d.LoadsInWords (.atIndex d.shape a i)
    · rw [ensure_of hloads, ok_bind, andThen_ok, run_bind, run_lift, hnext, andThen_ok, he, ok_bind]
    · rw [ensure_of_not hloads]
      rfl

/-- **The slices along an axis add up to the fold of the whole dataset along it**, just if each of
them is read in words. -/
theorem Shows.accumulate_eq {axis : Int} (haxis : normalizeAxis axis d.rank = .ok a)
    (hsmall : d.shape.getD a 0 = 0 ∨ ∀ k ∈ d.shape, k < half)
    (hreserve : reserve .double (d.shape.eraseIdx a) d.itemSize = .ok m) :
    ∃ e, (src.accumulate axis init op).run state =
        ((do ensure (d.SlicesInWords a); .ok e), state) ∧ e.FoldOf d a init op.onFloats := by
  have halt : a < d.shape.length := normalizeAxis_lt haxis
  have ha : (d.shape : List Nat)[a]? = some (d.shape.getD a 0) := by
    simp [getElem?_eq_getElem halt]
  obtain ⟨c, hc⟩ := reserve_set halt hreserve
  obtain ⟨start, hstart, htotal⟩ := Dataset.exists_totalOf hd hc
  obtain ⟨total, hrun, htotal⟩ :=
    h.accumulateFrom_eq hd hmeta hsmall ha hreserve (Nat.zero_add _) htotal
  obtain ⟨e, he, hfold⟩ := htotal.exists_setShape ha hreserve
  refine ⟨e, ?_, hfold⟩
  simp only [Nat.zero_add] at hrun
  have hwords : (do ensure (d.SlicesInWords a); .ok e) = (do
      ensure (Shape.stridesFit d.itemSize (d.shape.set a 1))
      ensure (∀ i < d.shape.getD a 0, d.LoadsInWords (.atIndex d.shape a i))
      .ok e) := by
    rw [ensure_and]
    rfl
  rw [accumulate, run_bind, run_lift, h.rank_eq, haxis, andThen_ok, h.shape_eq, h.itemSize_eq,
    run_bind, run_lift, hstart, hwords]
  by_cases hstrides : Shape.stridesFit d.itemSize (d.shape.set a 1)
  · rw [ensure_of hstrides, ok_bind, ok_bind, andThen_ok, run_bind, hrun]
    by_cases hloads : ∀ i < d.shape.getD a 0, d.LoadsInWords (.atIndex d.shape a i)
    · rw [ensure_of hloads, ok_bind, ok_bind, andThen_ok, run_lift, he]
    · rw [ensure_of_not hloads]
      rfl
  · rw [ensure_of_not hstrides]
    rfl

end Source

end Hyperslab
