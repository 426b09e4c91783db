import Hyperslab.Proofs.Fields
import Hyperslab.Proofs.PositionMaps
import Hyperslab.Proofs.ViewSafety

/-!
# Where items come from

Every operation that derives a dataset leads each position of the result back to a position of the
dataset that it started from: a region counts from its start in steps, another order of axes
reorders coordinates, and another shape keeps the row-major number. What an operation derives is
made in a few ways only. It shares the buffer through a chain of new frames, or it packs items into
a buffer of its own; in both cases it has the items that its positions lead back to.
-/
namespace Hyperslab

open Dataset Permutation Shape

open Dataset

/-! ## What operations lead back to -/

namespace ViewOp

/-- The operation may show one item in several places. -/
def repeats : ViewOp → Bool
  | broadcastView _ => true
  | _ => false

/-- The position of a dataset of shape `s` that position `q` of what is derived from it, of shape
`t`, comes from. -/
def origin (s t : Shape) (q : Position) : ViewOp → Position
  | view | copy => q
  | slice r _ | sliceView r _ => (r.coords q).map Int.toNat
  | transposed axes =>
      match Permutation.ofAxes s.length axes with
      | .ok perm => Permutation.apply (Permutation.inverse perm) q
      | .error _ => q
  | swapAxes a b => q.exchange (Shape.axisOf a s.length) (Shape.axisOf b s.length)
  | rollAxis axis start =>
      let a := Shape.axisOf axis s.length
      let b := Shape.axisOf start s.length
      q.relocate (if a < b then b - 1 else b) a
  | flip axis => q.mirror s (Shape.axisOf axis s.length)
  | rot90 k => q.turn t (k % 4).toNat
  | reshape _ | setShape _ | squeeze | squeezeEnds | squeezeAxes _ | flatten =>
      Shape.unravel (t.ravel q) s
  | broadcastView _ => s.project q

end ViewOp

/-! ## Sharing a buffer -/

namespace Dataset

variable {d : Block}

section Shares

variable {β : Type}

/-- The dataset `v` looks at the buffer of `h` through new frames, one after another; `φ` leads its
positions back to those of `h`. -/
inductive Shares : Dataset β → (Position → Position) → Dataset β → Prop where
  | mark (h : Dataset β) (isView : Bool) : Shares h id { h with isView := isView }
  | view (h : Dataset β) : Shares h id h.view
  | slice {h v : Dataset β} {r : Region} : r.Built → h.sliceView r = .ok v →
      Shares h r.sourcePosition v
  | permute {h : Dataset β} {perm : List Nat} {m : Metadata} : Permutation.Orders perm h.rank →
      h.metadata.onTranspose perm = .ok m →
      Shares h (Permutation.apply (Permutation.inverse perm)) (h.through (h.permuted perm) m)
  | reshape {h v : Dataset β} {t : Shape} : h.reshapeView? t = .ok (some v) →
      Shares h (fun q => Shape.unravel (t.ravel q) h.shape) v
  | trans {h u v : Dataset β} {φ ψ : Position → Position} : Shares h φ u → Shares u ψ v →
      Shares h (fun q => φ (ψ q)) v
  | congr {h v : Dataset β} {φ ψ : Position → Position} : Shares h φ v →
      (∀ q, v.shape.contains q = true → φ q = ψ q) → Shares h ψ v

variable {h v : Dataset β} {φ : Position → Position} {length : Nat}

/-- The dataset `v` is over the buffer of `h` and shows the items of `h` that `φ` leads to, none of
them twice. -/
structure Shown (v h : Dataset β) (φ : Position → Position) (length : Nat) : Prop where
  buffer_eq : v.buffer = h.buffer
  kind_eq : v.kind = h.kind
  sound : v.toFrame.Sound length
  shows : v.geometry.Shows h.geometry φ
  injective : ∀ p q, v.shape.contains p = true → v.shape.contains q = true → φ p = φ q → p = q

theorem shown_of_geometry_eq (hh : h.toFrame.Sound length) (hbuffer : v.buffer = h.buffer)
    (hkind : v.kind = h.kind) (hgeometry : v.geometry = h.geometry) : v.Shown h id length where
  buffer_eq := hbuffer
  kind_eq := hkind
  sound := by
    have hsize : v.size * v.itemSize = h.size * h.itemSize := by
      have hshape : v.shape = h.shape := congrArg Geometry.shape hgeometry
      have hitem : v.itemSize = h.itemSize := congrArg Geometry.itemSize hgeometry
      rw [Frame.size, Frame.size, hshape, hitem]
    exact ⟨hgeometry ▸ hh.inside, by rw [hkind, hsize]; exact hh.listable⟩
  shows := by
    rw [hgeometry]
    exact ⟨rfl, hh.inside.length_strides, fun _ hp => hp, fun _ _ => rfl⟩
  injective _ _ _ _ hpq := hpq

theorem sliceView_eq_ok {r : Region} (hv : h.sliceView r = .ok v) : r.source = h.shape ∧
    v.shape = r.shape ∧ h.metadata.onSlice r true = .ok v.metadata := by
  simp only [sliceView, bind_eq_ok, pure_eq_ok] at hv
  obtain ⟨frame, hframe, m, hm, rfl⟩ := hv
  obtain ⟨hsource, hgeometry, -⟩ := Frame.slice_eq_ok hframe
  exact ⟨hsource, congrArg Geometry.shape hgeometry, hm⟩

theorem reshapeView_eq_some {t : Shape} (hv : h.reshapeView? t = .ok (some v)) :
    ∃ map, Regrouping.of h.shape t = .ok map ∧ h.regrouped? map = some v.toFrame ∧
      v.buffer = h.buffer ∧ h.metadata.onReshape map = .ok v.metadata := by
  simp only [reshapeView?, bind_eq_ok] at hv
  obtain ⟨map, hmap, -, -, hv⟩ := hv
  split at hv
  · rename_i frame hframe
    simp only [bind_eq_ok, pure_eq_ok, Option.some.injEq] at hv
    obtain ⟨m, hm, rfl⟩ := hv
    exact ⟨map, hmap, hframe, rfl, hm⟩
  · simp at hv

theorem shown_slice {r : Region} (hh : h.toFrame.Sound length) (hr : r.Valid)
    (hv : h.sliceView r = .ok v) : v.Shown h r.sourcePosition length := by
  simp only [sliceView, bind_eq_ok, pure_eq_ok] at hv
  obtain ⟨frame, hframe, m, -, rfl⟩ := hv
  obtain ⟨hsource, hgeometry, hkind, -⟩ := Frame.slice_eq_ok hframe
  have hshape : frame.shape = r.shape := congrArg Geometry.shape hgeometry
  refine ⟨rfl, hkind, hh.slice hr hframe, Frame.slice_shows hh hr hframe, fun p q hp hq => ?_⟩
  exact hh.inside.sourcePosition_inj hr hsource (hshape ▸ hp) (hshape ▸ hq)

theorem shown_permute {perm : List Nat} {m : Metadata} (hh : h.toFrame.Sound length)
    (hperm : Orders perm h.rank) : (h.through (h.permuted perm) m).Shown h
      (apply (inverse perm)) length := by
  refine ⟨rfl, rfl, hh.permuted hperm, Frame.permuted_shows hh hperm, fun p q hp hq hpq => ?_⟩
  have hlength {p : Position} (hp : contains (apply perm h.shape) p) : p.length = h.rank := by
    rw [length_of_contains hp, length_apply fun a ha => hperm.mem_iff.mp ha]
    exact hperm.length_eq
  calc p = apply perm (apply (inverse perm) p) :=
        (apply_apply_inverse (hlength hp ▸ hperm)).symm
    _ = apply perm (apply (inverse perm) q) := by rw [hpq]
    _ = q := apply_apply_inverse (hlength hq ▸ hperm)

theorem shown_reshape {t : Shape} (hh : h.toFrame.Sound length)
    (hv : h.reshapeView? t = .ok (some v)) :
    v.shape = t ∧ v.Shown h (fun q => unravel (t.ravel q) h.shape) length := by
  obtain ⟨map, hmap, hframe, hbuffer, -⟩ := reshapeView_eq_some hv
  obtain ⟨hsize, -, htarget, -⟩ := Regrouping.of_eq_ok hmap
  obtain ⟨hshape, hkind, -⟩ := Frame.regrouped_eq_some hframe
  have hshape : v.shape = t := hshape.trans htarget
  refine ⟨hshape, hbuffer, hkind, hh.regrouped hmap hframe, Frame.regrouped_shows hh hmap hframe,
    fun p q hp hq hpq => ?_⟩
  rw [hshape] at hp hq
  exact unravel_ravel_inj hsize hp hq hpq

/-- **What shares a buffer shows items of that buffer, none of them twice.** -/
theorem Shares.shown (hv : h.Shares φ v) (hh : h.toFrame.Sound length) : v.Shown h φ length := by
  induction hv with
  | mark h isView => exact shown_of_geometry_eq hh rfl rfl rfl
  | view h => exact shown_of_geometry_eq hh rfl rfl (Frame.geometry_view _)
  | slice hr hv => exact shown_slice hh hr.valid hv
  | permute hperm _ => exact shown_permute hh hperm
  | reshape hv => exact (shown_reshape hh hv).2
  | trans _ _ ihu ihv =>
    have hu := ihu hh
    have hv := ihv hu.sound
    exact ⟨hv.buffer_eq.trans hu.buffer_eq, hv.kind_eq.trans hu.kind_eq, hv.sound,
      hv.shows.trans hu.shows, fun p q hp hq hpq => hv.injective p q hp hq
        (hu.injective _ _ (hv.shows.contains p hp) (hv.shows.contains q hq) hpq)⟩
  | congr _ hφψ ih =>
    have hv := ih hh
    refine ⟨hv.buffer_eq, hv.kind_eq, hv.sound, hv.shows.congr hφψ, fun p q hp hq hpq => ?_⟩
    rw [← hφψ p hp, ← hφψ q hq] at hpq
    exact hv.injective p q hp hq hpq

end Shares

/-! ## Packing items into a new buffer -/

/-- The dataset `e` has items of `d` in a packed buffer of its own; `φ` leads its positions back to
those of `d`. -/
inductive Packs (d : Block) : (Position → Position) → Block → Prop where
  | copy : d.checkRead = .ok () → Packs d id d.copy
  | slice {r : Region} {e : Block} : r.Built → d.slice r = .ok e → Packs d r.sourcePosition e
  | reshape {t : Shape} {map : Regrouping} {m : Metadata} : Regrouping.of d.shape t = .ok map →
      d.metadata.onReshape map = .ok m →
      Packs d (fun q => Shape.unravel (t.ravel q) d.shape)
        (ofField { d.field.dense with shape := t } m)

theorem slice_eq_ok {e : Block} {r : Region} (he : d.slice r = .ok e) : r.source = d.shape ∧
    e.shape = r.shape ∧ d.metadata.onSlice r false = .ok e.metadata := by
  simp only [slice, Field.slice, Field.sliceView, bind_eq_ok, pure_eq_ok] at he
  obtain ⟨f, ⟨v, ⟨frame, hframe, rfl⟩, -, -, -, -, rfl⟩, m, hm, rfl⟩ := he
  obtain ⟨hsource, hgeometry, -⟩ := Frame.slice_eq_ok hframe
  exact ⟨hsource, congrArg Geometry.shape hgeometry, hm⟩

/-- What a packed dataset is: a new buffer with items of the old one, none of them twice and all of
them apart. -/
structure Packed (e d : Block) (φ : Position → Position) : Prop where
  shows : e.field.Shows d.field φ
  injective : ∀ p q, e.shape.contains p = true → e.shape.contains q = true → φ p = φ q → p = q
  separate : e.geometry.Separate
  generation_eq : e.buffer.generation = 0

theorem packed_ofField {f : Field} {m : Metadata} {φ : Position → Position} {k : Kind}
    {name : String} {s : Shape} {n : Nat} (hf : f.toFrame = .packed k name s n)
    (h : f.Shows d.field φ) (hinj : ∀ p q, s.contains p → s.contains q → φ p = φ q → p = q) :
    (ofField f m).Packed d φ where
  shows := h
  injective p q hp hq := by
    have hshape : (ofField f m).shape = s := congrArg Frame.shape hf
    exact hinj p q (hshape ▸ hp) (hshape ▸ hq)
  separate := by
    have hsound : f.Sound := h.sound
    have hframe : (ofField f m).toFrame = .packed k name s n := hf
    rw [Field.Sound, hf] at hsound
    rw [hframe]
    exact Frame.separate_packed hsound.inside.itemSize_pos hsound.listable
  generation_eq := rfl

/-- **What is packed has the items that its positions lead back to.** -/
theorem Packs.packed {e : Block} {φ : Position → Position} (he : d.Packs φ e) (hd : d.Sound) :
    e.Packed d φ := by
  have hfield : d.field.Sound := hd
  cases he with
  | copy _ => exact packed_ofField rfl (Field.shows_dense hfield) fun _ _ _ _ hpq => hpq
  | @slice r e hr he =>
    obtain ⟨hsource, hshape, -⟩ := slice_eq_ok he
    simp only [Dataset.slice, bind_eq_ok, pure_eq_ok] at he
    obtain ⟨f, hf, m, -, rfl⟩ := he
    have hshows := (Field.shows_slice hfield hr.valid hf).1
    simp only [Field.slice, bind_eq_ok, pure_eq_ok] at hf
    obtain ⟨v, -, -, -, -, -, rfl⟩ := hf
    refine packed_ofField rfl hshows fun p q hp hq => ?_
    exact hd.inside.sourcePosition_inj hr.valid hsource (hshape ▸ hp) (hshape ▸ hq)
  | @reshape t map m hmap _ =>
    obtain ⟨hsize, -, -, -⟩ := Regrouping.of_eq_ok hmap
    exact packed_ofField rfl (Field.shows_packed d.name hfield hsize) fun p q =>
      unravel_ravel_inj hsize

end Dataset

/-! ## What each operation does -/

namespace Dataset

section Operations

variable {β : Type} {h v : Dataset β} {length : Nat}

theorem shares_transposed {axes : List Int} {perm : List Nat} (hv : h.transposed axes = .ok v)
    (hperm : ofAxes h.rank axes = .ok perm) :
    v.shape = apply perm h.shape ∧ h.Shares (apply (inverse perm)) v := by
  simp only [transposed, hperm, bind_eq_ok, Except.ok.injEq] at hv
  obtain ⟨_, rfl, hv⟩ := hv
  have horders := orders_of_ofAxes hperm
  split at hv
  · rename_i hid
    have hrange : perm = List.range h.shape.length := by
      rw [isIdentity_iff.mp hid, horders.length_eq]
      rfl
    simp only [pure_eq_ok] at hv
    subst hv hrange
    refine ⟨(apply_range h.shape).symm, (Shares.view h).congr fun q hq => ?_⟩
    have hlength : q.length = h.shape.length := length_of_contains hq
    rw [apply_inverse_range hlength, id]
  · simp only [bind_eq_ok, pure_eq_ok] at hv
    obtain ⟨-, -, m, hm, rfl⟩ := hv
    exact ⟨rfl, .permute horders hm⟩

/-- An order of axes leads back along any map that it undoes. -/
theorem shares_of_order {perm : List Nat} {φ : Position → Position}
    (horders : Orders perm h.rank) (hv : h.transposed (perm.map Int.ofNat) = .ok v)
    (hφ : ∀ q, q.length = h.rank → (φ q).length = h.rank ∧ apply perm (φ q) = q) :
    v.shape = apply perm h.shape ∧ h.Shares φ v := by
  obtain ⟨hshape, hshares⟩ := shares_transposed hv (ofAxes_map_ofNat horders)
  refine ⟨hshape, hshares.congr fun q hq => ?_⟩
  have hlength : q.length = h.rank := by
    rw [hshape] at hq
    rw [length_of_contains hq, length_apply fun a ha => horders.mem_iff.mp ha, horders.length_eq]
  obtain ⟨hφlength, happly⟩ := hφ q hlength
  exact apply_inverse_of_apply_eq (hφlength ▸ horders) happly

theorem shares_swapAxes {i j : Int} (hv : h.swapAxes i j = .ok v) :
    let a := axisOf i h.rank
    let b := axisOf j h.rank
    v.shape = apply (swap h.rank a b) h.shape ∧ h.Shares (Position.exchange a b) v := by
  intro a b
  simp only [swapAxes, Frame.swapping, bind_eq_ok, pure_eq_ok] at hv
  obtain ⟨axes, ⟨a', ha', b', hb', rfl⟩, hv⟩ := hv
  obtain ⟨ha, halt⟩ := normalizeAxis_eq_ok ha'
  obtain ⟨hb, hblt⟩ := normalizeAxis_eq_ok hb'
  have haxes : ((List.range h.rank).map fun i =>
      if i = a' then (b' : Int) else if i = b' then (a' : Int) else (i : Int)) =
        (swap h.rank a' b').map Int.ofNat := by
    rw [swap, List.map_map]
    refine List.map_congr_left fun i _ => ?_
    simp only [Function.comp_apply, apply_ite Int.ofNat, Int.ofNat_eq_natCast]
  rw [haxes] at hv
  rw [show a = a' from ha.symm, show b = b' from hb.symm]
  exact shares_of_order (orders_swap halt hblt) hv fun q hq =>
    ⟨by simp [Position.exchange, hq], apply_swap hq halt hblt⟩

theorem shares_rollAxis {axis start : Int} (hv : h.rollAxis axis start = .ok v) :
    let a := axisOf axis h.rank
    let b := axisOf start h.rank
    h.Shares (Position.relocate (if a < b then b - 1 else b) a) v := by
  intro a b
  simp only [rollAxis, Frame.rolling, bind_eq_ok] at hv
  obtain ⟨axes, ⟨a', ha', hv'⟩, hv⟩ := hv
  obtain ⟨ha, halt⟩ := normalizeAxis_eq_ok ha'
  have hb : (b : Int) = max (if start < 0 then start + h.rank else start) 0 := Int.toNat_eq_max _
  generalize (if start < 0 then start + (h.rank : Int) else start) = c at hv' hb
  split at hv'
  · simp at hv'
  simp only [pure_eq_ok] at hv'
  subst hv'
  have hplace : (if (a' : Int) < c then c - 1 else c).toNat = if a < b then b - 1 else b := by
    split <;> split <;> omega
  have hlt : (if a < b then b - 1 else b) < h.rank := by
    split <;> omega
  rw [hplace] at hv
  rw [show a = a' from ha.symm] at hlt hv ⊢
  exact (shares_of_order (orders_move halt hlt) hv fun q hq =>
    ⟨(q.length_relocate (hq ▸ hlt) (hq ▸ halt)).trans hq, apply_move hq halt hlt⟩).2

theorem shares_flip {axis : Int} (hh : h.toFrame.Sound length) (hv : h.flip axis = .ok v) :
    v.shape = h.shape ∧ h.Shares (Position.mirror h.shape (Shape.axisOf axis h.rank)) v := by
  simp only [Dataset.flip, bind_eq_ok] at hv
  obtain ⟨r, hr, hv⟩ := hv
  have hbuilt : r.Built := .flip (.full _) hr
  have hshape : v.shape = h.shape := by
    rw [(sliceView_eq_ok hv).2.1, Region.shape_flip hr, Region.shape_full]
  refine ⟨hshape, (Shares.slice hbuilt hv).congr fun q hq => ?_⟩
  rw [hshape] at hq
  have hrank : (Region.full h.shape).rank = h.rank := by simp [Region.rank, Region.full, Frame.rank]
  simp only [Region.flip, bind_eq_ok, pure_eq_ok, hrank] at hr
  obtain ⟨a, ha, rfl⟩ := hr
  rw [← (normalizeAxis_eq_ok ha).1]
  refine Region.sourcePosition_flip (fun d hd => ?_) hq
  exact hh.inside.lt_half (size_pos_of_contains hq) hd

theorem shares_rot90 {k : Int} (hh : h.toFrame.Sound length) (hv : h.rot90 k = .ok v) :
    h.Shares (fun q => q.turn v.shape (k % 4).toNat) v := by
  simp only [rot90, bind_eq_ok] at hv
  obtain ⟨-, -, hv⟩ := hv
  generalize (k % 4).toNat = n at hv ⊢
  split at hv
  · simp only [pure_eq_ok] at hv
    exact hv ▸ .view h
  · simp only [bind_eq_ok] at hv
    obtain ⟨u, hu, hv⟩ := hv
    have hswap := (shares_swapAxes hu).2
    obtain ⟨hshape, hflip⟩ := shares_flip (hswap.shown hh).sound hv
    exact hswap.trans (hshape ▸ hflip)
  · simp only [bind_eq_ok] at hv
    obtain ⟨u, hu, hv⟩ := hv
    obtain ⟨hushape, hu⟩ := shares_flip hh hu
    obtain ⟨hshape, hflip⟩ := shares_flip (hu.shown hh).sound hv
    rw [← hushape] at hu
    exact hshape ▸ hu.trans hflip
  · simp only [bind_eq_ok] at hv
    obtain ⟨u, hu, hv⟩ := hv
    have hswap := (shares_swapAxes hu).2
    obtain ⟨hshape, hflip⟩ := shares_flip (hswap.shown hh).sound hv
    have hturn (q : Position) : q.turn v.shape n = (q.mirror v.shape 1).exchange 0 1 := by
      unfold Position.turn
      split <;> first | rfl | contradiction
    simp only [hturn]
    exact hswap.trans (hshape ▸ hflip)

end Operations

end Dataset

/-! ## Deriving -/

/-- The dataset `v` of the store `s'` was derived from `h` in the store `s`, and `φ` leads its
positions back to those of `h`. -/
inductive Handle.Derives (s : Store) (h : Handle) :
    (Position → Position) → Store → Handle → Prop where
  | shared {φ : Position → Position} {v : Handle} : h.Shares φ v → Derives s h φ s v
  | packed {φ ψ : Position → Position} {d : Block} (isView : Bool) : (s.read h).Packs φ d →
      (∀ q, d.shape.contains q = true → φ q = ψ q) →
      Derives s h ψ (s.adopt d).2 { (s.adopt d).1 with isView := isView }

namespace Store

@[simp] theorem buffer_adopt_self (s : Store) (d : Block) :
    (s.adopt d).2.buffer s.buffers.size = d.buffer := by
  simp [buffer, adopt]

end Store

namespace Handle

variable {φ : Position → Position} {r : Region} {t : Shape}

variable {h v : Handle} {s s' : Store}

section

variable (hv : h.Derives s φ s' v) (hh : h.Held s)
include hv hh

/-- **What is derived has the items that its positions lead back to.** -/
theorem Derives.shows : (s'.read v).field.Shows (s.read h).field φ := by
  cases hv with
  | shared hv =>
    have hshown := hv.shown hh.sound
    have hfield : (s.read v).field = (s.read h).field.withFrame v.toFrame := by
      simp only [field, Store.read, Field.withFrame, hshown.buffer_eq]
    rw [hfield]
    exact Field.shows_withFrame hh.sound hshown.sound hshown.kind_eq
      hshown.shows
  | @packed φ' _ d isView hd hφψ =>
    have hshows := ((hd.packed hh.sound).shows).congr hφψ
    have hbuffer := s.buffer_adopt_self d
    have hfield : ((s.adopt d).2.read { (s.adopt d).1 with isView := isView }).field =
        { d.field with isView := isView } := by
      simp only [field, Store.read, Store.adopt] at hbuffer ⊢
      rw [hbuffer]
    rw [hfield]
    exact ⟨⟨hshows.sound.inside, hshows.sound.listable⟩, hshows.kind_eq, hshows.itemSize_eq,
      hshows.contains, hshows.item_eq⟩

theorem Derives.injective {p q : Position} (hp : v.shape.contains p) (hq : v.shape.contains q)
    (hpq : φ p = φ q) : p = q := by
  cases hv with
  | shared hv => exact (hv.shown hh.sound).injective p q hp hq hpq
  | packed isView hd hφψ =>
    rw [← hφψ p hp, ← hφψ q hq] at hpq
    exact (hd.packed hh.sound).injective p q hp hq hpq

theorem Derives.held : v.Held s' := by
  have hsound := (hv.shows hh).sound
  refine ⟨?_, hsound⟩
  cases hv with
  | shared hv => exact (hv.shown hh.sound).buffer_eq ▸ hh.buffer_lt
  | packed => simp [Store.adopt]

end

theorem Held.sourcePosition_eq (hh : h.Held s) (hr : r.Valid) (hsource : r.source = h.shape)
    {q : Position} (hq : r.shape.contains q) : r.sourcePosition q = (r.coords q).map Int.toNat := by
  have hs : 0 < size r.source := (size_pos_of_contains hq).trans_le hr.size_le
  refine hr.sourcePosition_eq (fun d hd => ?_) hq
  rw [hsource] at hs hd
  exact hh.sound.inside.small hs hd

theorem run_copy_eq_ok (hrun : h.copy.run s = (.ok v, s')) :
    (s.read h).checkRead = .ok () ∧ (v, s') = s.adopt (s.read h).copy := by
  simp only [copy, read, run_bind, run_peek, andThen_ok] at hrun
  cases hread : (s.read h).checkRead with
  | error e =>
    rw [hread] at hrun
    cases hrun
  | ok u =>
    rw [hread] at hrun
    cases hrun
    exact ⟨rfl, rfl⟩

theorem run_slice_eq_ok (hrun : (h.slice r).run s = (.ok v, s')) :
    ∃ d, (s.read h).slice r = .ok d ∧ (v, s') = s.adopt d := by
  simp only [slice, run_bind, run_peek, andThen_ok] at hrun
  cases hslice : (s.read h).slice r with
  | error e =>
    rw [hslice] at hrun
    cases hrun
  | ok d =>
    rw [hslice] at hrun
    cases hrun
    exact ⟨d, rfl, rfl⟩

theorem derives_copy (hrun : h.copy.run s = (.ok v, s')) : h.Derives s id s' v := by
  obtain ⟨hread, hadopt⟩ := run_copy_eq_ok hrun
  cases hadopt
  exact .packed false (.copy hread) fun _ _ => rfl

theorem derives_slice (hh : h.Held s) (hr : r.Built) (hrun : (h.slice r).run s = (.ok v, s')) :
    h.Derives s (fun q => (r.coords q).map Int.toNat) s' v := by
  obtain ⟨d, hslice, hadopt⟩ := run_slice_eq_ok hrun
  cases hadopt
  obtain ⟨hsource, hshape, -⟩ := slice_eq_ok hslice
  refine .packed d.isView (.slice hr hslice) fun q hq => ?_
  exact hh.sourcePosition_eq hr.valid hsource (hshape ▸ hq)

theorem derives_sliceView (hh : h.Held s) (hr : r.Built)
    (hv : h.sliceView r = .ok v) : h.Derives s (fun q => (r.coords q).map Int.toNat) s v := by
  obtain ⟨hsource, hshape, -⟩ := sliceView_eq_ok hv
  refine .shared ((Shares.slice hr hv).congr fun q hq => ?_)
  rw [hshape] at hq
  exact hh.sourcePosition_eq hr.valid hsource hq

/-- Another shape is a new frame over the buffer, or the items are packed for it. -/
theorem run_reshape_eq_ok (hrun : (h.reshape t).run s = (.ok v, s')) :
    h.reshapeView? t = .ok (some v) ∧ s' = s ∨
      ∃ map m, Regrouping.of h.shape t = .ok map ∧ h.metadata.onReshape map = .ok m ∧
        (v, s') = s.adopt (ofField { (s.read h).field.dense with shape := t } m) := by
  simp only [reshape, run_bind] at hrun
  cases hview : h.reshapeView? t with
  | error e =>
    rw [hview] at hrun
    cases hrun
  | ok v? =>
    rw [hview] at hrun
    cases v? with
    | some u =>
      cases hrun
      exact .inl ⟨rfl, rfl⟩
    | none =>
      simp only [andThen_ok, run_bind, run_peek, run_lift] at hrun
      -- There is no view, so the items are packed.
      simp only [reshapeView?, bind_eq_ok] at hview
      obtain ⟨map, hmap, u, hfault, hview⟩ := hview
      have hnone : (s.read h).regrouped? map = none := by
        split at hview
        · simp only [bind_eq_ok, pure_eq_ok, reduceCtorEq, and_false, exists_false] at hview
        · assumption
      cases hreshape : (s.read h).reshape t with
      | error e =>
        rw [hreshape] at hrun
        cases hrun
      | ok d =>
        rw [hreshape] at hrun
        cases hrun
        simp only [Dataset.reshape, bind_eq_ok] at hreshape
        obtain ⟨map', hmap', -, -, hd⟩ := hreshape
        obtain rfl : map = map' := Except.ok.inj (hmap.symm.trans hmap')
        simp only [hnone, bind_eq_ok, pure_eq_ok] at hd
        obtain ⟨-, -, m, hm, rfl⟩ := hd
        exact .inr ⟨map, m, hmap', hm, rfl⟩

theorem derives_reshape (hh : h.Held s) (hrun : (h.reshape t).run s = (.ok v, s')) :
    v.shape = t ∧ h.Derives s (fun q => unravel (t.ravel q) h.shape) s' v := by
  rcases run_reshape_eq_ok hrun with ⟨hview, rfl⟩ | ⟨map, m, hmap, hm, hadopt⟩
  · exact ⟨(shown_reshape hh.sound hview).1, .shared (.reshape hview)⟩
  · cases hadopt
    exact ⟨rfl, .packed false (.reshape hmap hm) fun _ _ => rfl⟩

theorem run_setShape_eq_ok (hrun : (h.setShape t).run s = (.ok v, s')) :
    t = h.shape ∧ v = h ∧ s' = s ∨
      ∃ u isView, (h.reshape t).run s = (.ok u, s') ∧ v = { u with isView := isView } := by
  unfold setShape at hrun
  split at hrun
  · rename_i hshape
    cases hrun
    exact .inl ⟨hshape, rfl, rfl⟩
  · rw [run_bind] at hrun
    cases hreshape : (h.reshape t).run s with
    | mk out s'' =>
      rw [hreshape] at hrun
      cases out with
      | error e => cases hrun
      | ok u =>
        cases hrun
        exact .inr ⟨u, _, rfl, rfl⟩

theorem derives_setShape (hh : h.Held s) (hrun : (h.setShape t).run s = (.ok v, s')) :
    v.shape = t ∧ h.Derives s (fun q => unravel (t.ravel q) h.shape) s' v := by
  rcases run_setShape_eq_ok hrun with ⟨hshape, rfl, rfl⟩ | ⟨u, isView, hreshape, rfl⟩
  · refine ⟨hshape.symm, .shared ((Shares.mark v v.isView).congr fun q hq => ?_)⟩
    rw [hshape, unravel_ravel hq, id]
  · obtain ⟨hshape, hderives⟩ := derives_reshape hh hreshape
    refine ⟨hshape, ?_⟩
    cases hderives with
    | shared hu => exact .shared (hu.trans (.mark u _))
    | packed _ hd hφψ => exact .packed _ hd hφψ

end Handle

/-- **What an operation derives, and which positions it leads back to.** -/
theorem ViewOp.derives {op : ViewOp} {h v : Handle} {s s' : Store} (hh : h.Held s)
    (hop : op.repeats = false) (hrun : (op.run h).run s = (.ok v, s')) :
    h.Derives s (fun q => op.origin h.shape v.shape q) s' v := by
  have hlift {x : Except Error Handle} (hx : (liftM x : StoreM Handle).run s = (.ok v, s')) :
      x = .ok v ∧ s' = s := by
    rw [run_lift, Prod.mk.injEq] at hx
    exact ⟨hx.1, hx.2.symm⟩
  cases op with
  | view =>
    cases hrun
    exact .shared (.view h)
  | copy => exact Handle.derives_copy hrun
  | slice r hr => exact Handle.derives_slice hh hr hrun
  | sliceView r hr =>
    obtain ⟨hv, rfl⟩ := hlift hrun
    exact Handle.derives_sliceView hh hr hv
  | transposed axes =>
    obtain ⟨hv, rfl⟩ := hlift hrun
    cases hperm : ofAxes h.rank axes with
    | error e => simp [Dataset.transposed, hperm, bind, Except.bind] at hv
    | ok perm =>
      have horigin (q : Position) : (ViewOp.transposed axes).origin h.shape v.shape q =
          apply (inverse perm) q := by
        have hperm : ofAxes h.shape.length axes = .ok perm := hperm
        simp only [origin, hperm]
      simp only [horigin]
      exact .shared (shares_transposed hv hperm).2
  | swapAxes a b =>
    obtain ⟨hv, rfl⟩ := hlift hrun
    exact .shared (shares_swapAxes hv).2
  | rollAxis axis start =>
    obtain ⟨hv, rfl⟩ := hlift hrun
    exact .shared (shares_rollAxis hv)
  | flip axis =>
    obtain ⟨hv, rfl⟩ := hlift hrun
    exact .shared (shares_flip hh.sound hv).2
  | rot90 k =>
    obtain ⟨hv, rfl⟩ := hlift hrun
    exact .shared (shares_rot90 hh.sound hv)
  | reshape t | squeeze | squeezeEnds | flatten =>
    obtain ⟨hshape, hderives⟩ := Handle.derives_reshape hh hrun
    exact hshape ▸ hderives
  | setShape t =>
    obtain ⟨hshape, hderives⟩ := Handle.derives_setShape hh hrun
    exact hshape ▸ hderives
  | squeezeAxes axes =>
    simp only [ViewOp.run, Handle.squeezeAxes, run_bind] at hrun
    cases ht : h.shape.squeezeAxes axes with
    | error e =>
      rw [ht] at hrun
      cases hrun
    | ok t =>
      rw [ht] at hrun
      obtain ⟨hshape, hderives⟩ := Handle.derives_reshape hh hrun
      exact hshape ▸ hderives
  | broadcastView t => cases hop

/-- What repeats items is a new frame over the same buffer, with nothing attached. -/
theorem ViewOp.exists_of_repeats {op : ViewOp} {h v : Handle} {s s' : Store}
    (hop : op.repeats) (hrun : (op.run h).run s = (.ok v, s')) :
    ∃ t frame, h.toFrame.broadcast t = .ok frame ∧ v = h.through frame .empty := by
  cases op with
  | broadcastView t =>
    rw [ViewOp.run, run_lift] at hrun
    have hv := congrArg Prod.fst hrun
    simp only [Dataset.broadcastView, bind_eq_ok, pure_eq_ok] at hv
    obtain ⟨frame, hframe, rfl⟩ := hv
    exact ⟨t, frame, hframe, rfl⟩
  | _ => cases hop

end Hyperslab
