import Hyperslab.Proofs.CopiesAndViews

/-!
# Regions of regions

A region of a region can be taken in two ways: by composing the two regions and viewing what they
select together, or by viewing the outer region and then the inner region of that view. The first
way combines starts and steps axis by axis, the second one moves an offset and scales strides. They
lead to the same items, and to the same offset and strides if there is an item.

In words, composition also computes where the composed region would stop. That bound is of no
consequence for what is selected, and it can leave the words where start and step do not.
-/
namespace Hyperslab

open List Region Word

/-! ## Spans -/

namespace Span

theorem compose_assoc (a b c : Span) : compose (compose a b) c = compose a (compose b c) := by
  simp only [compose, Span.mk.injEq]
  refine ⟨?_, ?_, ?_, trivial⟩ <;> ring

/-- Two spans that select something are composed in words, if the axis takes up no more than half of
the words, and the step, which means nothing for a single position, is no longer than that. -/
theorem Within.allFit_composeNumbers {outer inner : Span} {n : Nat} (ho : outer.Within n)
    (hi : inner.Within outer.count) (hpos : 0 < inner.count) (hroom : 2 * n ≤ half)
    (hunit : inner.count = 1 → 2 * |outer.step * inner.step| ≤ half) :
    AllFit (composeNumbers outer inner) := by
  have hwithin := ho.compose hi
  have hcount : inner.count ≤ n := hwithin.count_le
  have hsigned : signed inner.count = inner.count := signed_of_lt (by omega)
  -- The first and the last coordinate lie on the axis, and so does the start of the outer span.
  have houter := ho.inside 0 (by have := hi.count_le; omega)
  have hfirst := hwithin.inside 0 hpos
  have hlast := hwithin.inside (inner.count - 1) (Nat.sub_lt hpos Nat.one_pos)
  have hcast : ((inner.count - 1 : Nat) : Int) = inner.count - 1 := by omega
  simp only [coord, Span.compose, Nat.cast_zero, zero_mul, hcast, sub_mul]
    at houter hfirst hlast
  have hstep : -(half : Int) ≤ 2 * (outer.step * inner.step) ∧
      2 * (outer.step * inner.step) ≤ half := by
    rcases (show inner.count = 1 ∨ 1 < inner.count by omega) with hone | hmore
    · obtain ⟨hleast, hgreatest⟩ := abs_le.mp (le_refl |outer.step * inner.step|)
      omega
    · have hnext := hwithin.inside 1 hmore
      simp only [coord, Span.compose, Nat.cast_one] at hnext
      omega
  simp only [composeNumbers, hsigned, allFit_cons, allFit_nil, and_true, fits_iff]
  omega

end Span

/-! ## Regions -/

namespace Region

variable {a b c r x : Region}

/-- The numbers met in composing two regions are words. -/
def ComposesInWords (outer inner : Region) : Prop :=
  Word.AllFit (List.zipWith Span.composeNumbers outer.spans inner.spans).flatten

instance (outer inner : Region) : Decidable (outer.ComposesInWords inner) :=
  inferInstanceAs (Decidable (Word.AllFit _))

theorem composeInWords_eq (outer inner : Region) : outer.composeInWords inner = do
    let r ← outer.compose inner
    ensure (outer.ComposesInWords inner)
    return r := by
  simp only [composeInWords, check_eq_ensure]
  rfl

theorem composeInWords_eq_ok_iff :
    a.composeInWords b = .ok r ↔ a.compose b = .ok r ∧ a.ComposesInWords b := by
  rw [composeInWords_eq]
  by_cases h : a.ComposesInWords b
  · rw [ensure_of h]
    simp [h]
  · rw [ensure_of_not h]
    simp [h]

theorem Valid.exists_le_of_mem_shape (ha : a.Valid) {d : Nat} (hd : d ∈ a.shape) :
    ∃ n ∈ a.source, d ≤ n := by
  obtain ⟨i, hi, rfl⟩ := mem_iff_getElem.mp hd
  have hle := ha.shape_le
  rw [forall₂_iff_get] at hle
  have hlt : i < a.source.length := hle.1 ▸ hi
  exact ⟨_, getElem_mem hlt, hle.2 i hi hlt⟩

theorem Valid.exists_compose_iff (ha : a.Valid) (hb : b.Valid) :
    (∃ r, a.compose b = .ok r) ↔ b.source = a.shape :=
  ⟨fun ⟨_, h⟩ => compose_source h, fun h => ⟨_, ha.compose_eq hb h⟩⟩

/-- The three regions fit together, and the outer two are composed first. -/
theorem Valid.compose_left_eq_ok_iff (ha : a.Valid) (hb : b.Valid) (hc : c.Valid) :
    (do (← a.compose b).compose c) = .ok x ↔ (b.source = a.shape ∧ c.source = b.shape) ∧
      x = ⟨a.source, none, zipWith Span.compose
        (zipWith Span.compose a.spans b.spans) c.spans, false, .none⟩ := by
  rw [bind_eq_ok]
  constructor
  · rintro ⟨r, hr, hx⟩
    have hsource := compose_source hr
    have hshape := (ha.shape_compose hb hr).2
    have hinner := compose_source hx
    rw [(ha.compose hb hr).compose_eq hc hinner, Except.ok.injEq] at hx
    rw [ha.compose_eq hb hsource, Except.ok.injEq] at hr
    subst hr hx
    exact ⟨⟨hsource, hinner.trans hshape⟩, rfl⟩
  · rintro ⟨⟨hsource, hinner⟩, rfl⟩
    have hr := ha.compose_eq hb hsource
    have hshape := (ha.shape_compose hb hr).2
    exact ⟨_, hr, (ha.compose hb hr).compose_eq hc (hinner.trans hshape.symm)⟩

/-- The three regions fit together, and the inner two are composed first. -/
theorem Valid.compose_right_eq_ok_iff (ha : a.Valid) (hb : b.Valid) (hc : c.Valid) :
    (do a.compose (← b.compose c)) = .ok x ↔ (b.source = a.shape ∧ c.source = b.shape) ∧
      x = ⟨a.source, none, zipWith Span.compose a.spans
        (zipWith Span.compose b.spans c.spans), false, .none⟩ := by
  rw [bind_eq_ok]
  constructor
  · rintro ⟨r, hr, hx⟩
    have hinner := compose_source hr
    have hsource := compose_source hx
    rw [ha.compose_eq (hb.compose hc hr) hsource, Except.ok.injEq] at hx
    rw [hb.compose_eq hc hinner, Except.ok.injEq] at hr
    subst hr hx
    exact ⟨⟨hsource, hinner⟩, rfl⟩
  · rintro ⟨⟨hsource, hinner⟩, rfl⟩
    have hr := hb.compose_eq hc hinner
    have hshape := (hb.shape_compose hc hr).1
    exact ⟨_, hr, ha.compose_eq (hb.compose hc hr) (hshape.trans hsource)⟩

theorem zipWith_compose_assoc (as bs cs : List Span) :
    zipWith Span.compose (zipWith Span.compose as bs) cs =
      zipWith Span.compose as (zipWith Span.compose bs cs) := by
  induction as generalizing bs cs with
  | nil => simp
  | cons a as ih =>
    cases bs with
    | nil => simp
    | cons b bs =>
      cases cs with
      | nil => simp
      | cons c cs => simp [ih, Span.compose_assoc]

theorem Valid.compose_assoc (ha : a.Valid) (hb : b.Valid) (hc : c.Valid) :
    (do (← a.compose b).compose c) = .ok x ↔ (do a.compose (← b.compose c)) = .ok x := by
  rw [ha.compose_left_eq_ok_iff hb hc, ha.compose_right_eq_ok_iff hb hc, zipWith_compose_assoc]

/-- In words, the result does not depend on which two regions are composed first, but whether there
is one may. -/
theorem Valid.composeInWords_assoc {y : Region} (ha : a.Valid) (hb : b.Valid) (hc : c.Valid)
    (hx : (do (← a.composeInWords b).composeInWords c) = .ok x)
    (hy : (do a.composeInWords (← b.composeInWords c)) = .ok y) : x = y := by
  simp only [bind_eq_ok, composeInWords_eq_ok_iff] at hx hy
  obtain ⟨ab, ⟨hab, -⟩, habc, -⟩ := hx
  obtain ⟨bc, ⟨hbc, -⟩, habc', -⟩ := hy
  have hleft : (do (← a.compose b).compose c) = .ok x := bind_eq_ok.mpr ⟨ab, hab, habc⟩
  have hright : (do a.compose (← b.compose c)) = .ok y := bind_eq_ok.mpr ⟨bc, hbc, habc'⟩
  exact Except.ok.inj (((ha.compose_assoc hb hc).mp hleft).symm.trans hright)

private theorem allFit_composeNumbers {outer inner : List Span} {s : Shape}
    (ho : Forall₂ Span.Within outer s) (hi : Forall₂ Span.Within inner (outer.map Span.count))
    (hpos : 0 < Shape.size (inner.map Span.count)) (hroom : ∀ n ∈ s, 2 * n ≤ half)
    (hunit : ∀ x ∈ zip outer inner, x.2.count = 1 → 2 * |x.1.step * x.2.step| ≤ half) :
    AllFit (zipWith Span.composeNumbers outer inner).flatten := by
  induction ho generalizing inner with
  | nil => simp
  | @cons o n outer s ho hos ih =>
    cases hi with
    | @cons i _ inner _ hi his =>
      simp only [zip_cons_cons, mem_cons, forall_eq_or_imp] at hroom hunit
      rw [zipWith_cons_cons, flatten_cons, allFit_append]
      exact ⟨ho.allFit_composeNumbers hi (Nat.pos_of_mul_pos_right hpos) hroom.1 hunit.1,
        ih his (Nat.pos_of_mul_pos_left hpos) hroom.2 hunit.2⟩

/-- Regions that select something are composed in words, if the axes take up no more than half of
the words and the steps at single positions are no longer than that. -/
theorem Valid.composesInWords_of_room (ha : a.Valid) (hb : b.Valid) (hsource : b.source = a.shape)
    (hpos : 0 < b.size) (hroom : ∀ n ∈ a.source, 2 * n ≤ half)
    (hunit : ∀ x ∈ zip a.spans b.spans, x.2.count = 1 → 2 * |x.1.step * x.2.step| ≤ half) :
    a.ComposesInWords b := by
  have hwithin := hb.within
  rw [hsource] at hwithin
  exact allFit_composeNumbers ha.within hwithin hpos hroom hunit

end Region

/-! ## Geometries -/

namespace Geometry

variable {g : Geometry} {length : Nat} {a b r : Region}

private theorem zipWith_mul_compose (ts : Strides) {outer inner : List Span} :
    zipWith (· * ·) (zipWith (· * ·) ts (outer.map Span.step)) (inner.map Span.step) =
      zipWith (· * ·) ts ((zipWith Span.compose outer inner).map Span.step) := by
  induction ts generalizing outer inner with
  | nil => simp
  | cons t ts ih =>
    cases outer with
    | nil => simp
    | cons o outer =>
      cases inner with
      | nil => simp
      | cons i inner => simp [ih, Span.compose, mul_assoc]

theorem strides_slice_slice (g : Geometry) (ha : a.Valid) (hb : b.Valid)
    (hr : a.compose b = .ok r) : ((g.slice a).slice b).strides = (g.slice r).strides := by
  have hvalid := ha.compose hb hr
  rw [ha.compose_eq hb (compose_source hr), Except.ok.injEq] at hr
  subst hr
  simp only [slice, ha.steps_eq, hb.steps_eq, hvalid.steps_eq, zipWith_mul_compose]

section

variable (h : g.Inside length) (ha : a.Valid) (hb : b.Valid) (hsource : a.source = g.shape)
  (hr : a.compose b = .ok r)
include h ha hb hsource hr

/-- A region of a region that selects something is reached either way. -/
theorem Inside.slice_slice (hpos : 0 < r.size) : (g.slice a).slice b = g.slice r := by
  have hinner := compose_source hr
  have hvalid := ha.compose hb hr
  obtain ⟨hrsource, hshape⟩ := ha.shape_compose hb hr
  have hsize : 0 < b.size := by
    rw [size, ← hshape]
    exact hpos
  have horigin : b.shape.contains b.shape.origin := Shape.contains_origin hsize
  have hs : 0 < a.shape.size := hinner ▸ hsize.trans_le hb.size_le
  have hsmall : ∀ d ∈ b.source, d ≤ modulus := by
    rw [hinner]
    exact fun d hd => (h.slice ha hsource).small hs hd
  -- The offset is the place of the first item, which both ways lead to.
  have hplace : ((g.slice a).slice b).place b.shape.origin = (g.slice r).place b.shape.origin := by
    rw [(h.slice ha hsource).place_slice hb hinner horigin,
      h.place_slice ha hsource ((h.slice ha hsource).contains_sourcePosition hb hinner horigin),
      h.place_slice hvalid (hrsource.trans hsource) (hshape ▸ horigin),
      ha.sourcePosition_compose hb hr horigin hsmall]
  have hoffset : ((g.slice a).slice b).offset = (g.slice r).offset := by
    simp only [place, Strides.offset_origin] at hplace
    omega
  have hstrides := g.strides_slice_slice ha hb hr
  calc (g.slice a).slice b
      = ⟨b.shape, g.itemSize, ((g.slice a).slice b).offset, ((g.slice a).slice b).strides⟩ := rfl
    _ = ⟨r.shape, g.itemSize, (g.slice r).offset, (g.slice r).strides⟩ := by
      rw [hshape, hoffset, hstrides]
    _ = g.slice r := rfl

/-- Either way, a region of a region is walked through the same numbers. -/
theorem Inside.walkNumbers_slice_slice :
    ((g.slice a).slice b).walkNumbers = (g.slice r).walkNumbers := by
  by_cases hpos : 0 < r.size
  · rw [h.slice_slice ha hb hsource hr hpos]
  · have hr0 : (g.slice r).shape.size = 0 := by
      change r.size = 0
      omega
    have hb0 : ((g.slice a).slice b).shape.size = 0 := by
      change b.shape.size = 0
      rw [← (ha.shape_compose hb hr).2]
      exact hr0
    simp [walkNumbers, hr0, hb0]

end

end Geometry

/-! ## Views of views -/

namespace Dataset

variable {d va vb vr : Block} {a b r : Region}

/-- Viewing a region of a view meets the numbers that viewing the composed region meets. -/
theorem viewsInWords_sliceView_iff (ha : a.Valid) (hb : b.Valid) (hr : a.compose b = .ok r)
    (hgeometry : va.geometry = d.geometry.slice a) (hviews : d.ViewsInWords a) :
    va.ViewsInWords b ↔ d.ViewsInWords r := by
  have hshape := (ha.shape_compose hb hr).2
  have hitem : va.itemSize = d.itemSize := congrArg Geometry.itemSize hgeometry
  have hown : va.HasStrides ↔ d.HasStrides :=
    iff_of_true (hasStrides_sliceView hgeometry hviews) hviews.own
  rw [Frame.viewsInWords_iff, Frame.viewsInWords_iff, hgeometry, hitem, hshape, hown,
    d.geometry.strides_slice_slice ha hb hr]

section

variable (hd : d.Sound) (ha : a.Valid) (hb : b.Valid) (hsource : a.source = d.shape)
  (hr : a.compose b = .ok r)
include hd ha hb hsource hr

theorem readsInWords_sliceView_iff (hgeometry : va.geometry = d.geometry.slice a)
    (hviews : d.ViewsInWords a) : va.ReadsInWords b ↔ d.ReadsInWords r := by
  rw [Frame.readsInWords_iff, Frame.readsInWords_iff,
    viewsInWords_sliceView_iff ha hb hr hgeometry hviews, hgeometry,
    hd.inside.walkNumbers_slice_slice ha hb hsource hr]

/-- A region of a view is viewed and read in words just if the first view is made, and the composed
region can be read. -/
theorem Sound.sliceViewInWords_sliceViewInWords (hmeta : d.metadata = .empty)
    (hmeta' : va.metadata = .empty) (hva : d.sliceView a = .ok va)
    (hvb : va.sliceView b = .ok vb) (hsound : va.Sound) (hsound' : vb.Sound) :
    (do (← (← d.sliceViewInWords a).sliceViewInWords b).toListInWords) = do
      ensure (d.ViewsInWords a ∧ d.ReadsInWords r)
      return vb.toList := by
  have hgeometry := geometry_sliceView hva
  have hinner : b.source = va.shape :=
    (compose_source hr).trans (congrArg Geometry.shape hgeometry).symm
  rw [sliceViewInWords_of_empty hd hmeta ha hsource, hva, bind_assoc, ok_bind]
  by_cases hviews : d.ViewsInWords a
  · rw [ensure_of hviews, ok_bind,
      hsound.sliceViewInWords_toListInWords hb hinner hmeta' hvb hsound',
      ensure_congr (readsInWords_sliceView_iff hd ha hb hsource hr hgeometry hviews),
      ensure_congr (and_iff_right hviews)]
  · rw [ensure_of_not hviews, ensure_of_not fun h => hviews h.1]
    rfl

end

/-- The views `va` of the region `a`, `vb` of its region `b` and `vr` of the composed region `r`:
the last two have the same elements, and the same offset and strides unless they are empty. In words,
the last two are made and read where the same numbers are words, given the first one. -/
structure ViewsMeet (d : Block) (a b r : Region) (va vb vr : Block) : Prop where
  outer_eq : d.sliceView a = .ok va
  inner_eq : va.sliceView b = .ok vb
  composed_eq : d.sliceView r = .ok vr
  shape_eq : vb.shape = vr.shape
  itemSize_eq : vb.itemSize = vr.itemSize
  toList_eq : vb.toList = vr.toList
  offset_eq : 0 < r.size → vb.offset = vr.offset
  strides_eq : 0 < r.size → vb.strides = vr.strides
  inWords : d.ViewsInWords a → d.ViewsInWords r → d.sliceViewInWords a = .ok va ∧
    va.sliceViewInWords b = .ok vb ∧ d.sliceViewInWords r = .ok vr
  inner_toListInWords :
    (do (← (← d.sliceViewInWords a).sliceViewInWords b).toListInWords) = do
      Word.ensure (d.ViewsInWords a ∧ d.ReadsInWords r)
      return vr.toList
  composed_toListInWords :
    (do (← d.sliceViewInWords r).toListInWords) = do
      Word.ensure (d.ReadsInWords r)
      return vr.toList

/-- **A region of a view is viewed where the composed region is.** -/
theorem Sound.exists_viewsMeet (hd : d.Sound) (hmeta : d.metadata = .empty) (ha : a.Valid)
    (hb : b.Valid) (hsource : a.source = d.shape) (hr : a.compose b = .ok r)
    (hsmall : ∀ n ∈ b.source, n ≤ modulus) : ∃ va vb vr, d.ViewsMeet a b r va vb vr := by
  have hvalid := ha.compose hb hr
  obtain ⟨hrsource, hshape⟩ := ha.shape_compose hb hr
  have hrsource := hrsource.trans hsource
  obtain ⟨va, hva, hviewa, -, hshapea⟩ := hd.sliceView_eq hmeta ha hsource
  obtain ⟨vr, hvr, hviewr, -, hshaper⟩ := hd.sliceView_eq hmeta hvalid hrsource
  have hinner : b.source = va.shape := (compose_source hr).trans hshapea.symm
  obtain ⟨vb, hvb, hviewb, -, hshapeb⟩ := hviewa.sound.sliceView_eq hviewa.metadata_eq hb hinner
  have hboth : vb.shape = vr.shape := by rw [hshapeb, hshaper, hshape]
  have hlist : vb.toList = vr.toList := by
    refine toList_eq_of_items hboth fun p hp => ?_
    have hp' : b.shape.contains p := by rwa [← hshape, ← hshaper]
    rw [(hviewb.trans hviewa).item_eq hd (hboth ▸ hp), hviewr.item_eq hd hp,
      ha.sourcePosition_compose hb hr hp' hsmall]
  have hgeometry (hpos : 0 < r.size) : vb.geometry = vr.geometry := by
    rw [geometry_sliceView hvb, geometry_sliceView hva, geometry_sliceView hvr,
      hd.inside.slice_slice ha hb hsource hr hpos]
  refine ⟨va, vb, vr, hva, hvb, hvr, hboth, ?_, hlist,
    fun hpos => congrArg Geometry.offset (hgeometry hpos),
    fun hpos => congrArg Geometry.strides (hgeometry hpos), fun hviews hviews' => ?_, ?_, ?_⟩
  · rw [hviewb.itemSize_eq, hviewa.itemSize_eq, hviewr.itemSize_eq]
  · have hviewsb :=
      (viewsInWords_sliceView_iff ha hb hr (geometry_sliceView hva) hviews).mpr hviews'
    rw [sliceViewInWords_of_empty hd hmeta ha hsource, ensure_of hviews,
      sliceViewInWords_of_empty hviewa.sound hviewa.metadata_eq hb hinner, ensure_of hviewsb,
      sliceViewInWords_of_empty hd hmeta hvalid hrsource, ensure_of hviews']
    exact ⟨hva, hvb, hvr⟩
  · rw [hd.sliceViewInWords_sliceViewInWords ha hb hsource hr hmeta hviewa.metadata_eq hva hvb
      hviewa.sound hviewb.sound, hlist]
  · exact hd.sliceViewInWords_toListInWords hvalid hrsource hmeta hvr hviewr.sound

end Dataset

namespace Region

variable {a b : Region}

/-- **Composing regions is viewing one in the other.** Regions that fit together are composed over
exact integers, associatively, and the composed region selects what the outer one selects at the
positions of the inner one; so do views. In words the numbers on the way have to be words besides,
which they are on axes of half of the words, but for long steps at single positions. -/
theorem compose_follows_views (ha : a.Built) (hb : b.Built)
    (hsmall : ∀ n ∈ a.source, n < Word.modulus) :
    ((∃ r, a.compose b = .ok r) ↔ b.source = a.shape) ∧
    (∀ r, a.composeInWords b = .ok r ↔ a.compose b = .ok r ∧ a.ComposesInWords b) ∧
    (b.source = a.shape → ¬ a.ComposesInWords b →
      a.composeInWords b = .error (.fault .overflow)) ∧
    (b.source = a.shape → 0 < b.size → (∀ n ∈ a.source, 2 * n ≤ Word.half) →
      (∀ x ∈ List.zip a.spans b.spans, x.2.count = 1 →
        2 * |x.1.step * x.2.step| ≤ Word.half) → a.ComposesInWords b) ∧
    (∀ r, a.compose b = .ok r → r.source = a.source ∧ r.shape = b.shape ∧
      ∀ q, b.shape.contains q = true →
        r.sourcePosition q = a.sourcePosition (b.sourcePosition q)) ∧
    (∀ c : Region, c.Built →
      (∀ x, (do (← a.compose b).compose c) = .ok x ↔ (do a.compose (← b.compose c)) = .ok x) ∧
      ∀ x y, (do (← a.composeInWords b).composeInWords c) = .ok x →
        (do a.composeInWords (← b.composeInWords c)) = .ok y → x = y) ∧
    ∀ (d : Block) (r : Region), d.Sound → d.metadata = .empty → a.source = d.shape →
      a.compose b = .ok r → ∃ va vb vr, d.ViewsMeet a b r va vb vr := by
  have ha := ha.valid
  have hb := hb.valid
  have hinner {r : Region} (hr : a.compose b = .ok r) : ∀ n ∈ b.source, n ≤ Word.modulus := by
    rw [compose_source hr]
    intro n hn
    obtain ⟨m, hm, hle⟩ := ha.exists_le_of_mem_shape hn
    exact hle.trans (hsmall m hm).le
  refine ⟨ha.exists_compose_iff hb, fun r => composeInWords_eq_ok_iff, fun hsource hwords => ?_,
    ha.composesInWords_of_room hb, fun r hr => ?_, fun c hc => ?_,
    fun d r hd hmeta hsource hr => hd.exists_viewsMeet hmeta ha hb hsource hr (hinner hr)⟩
  · rw [composeInWords_eq, ha.compose_eq hb hsource, Word.ensure_of_not hwords]
    rfl
  · obtain ⟨hrsource, hshape⟩ := ha.shape_compose hb hr
    exact ⟨hrsource, hshape, fun q hq => ha.sourcePosition_compose hb hr hq (hinner hr)⟩
  · exact ⟨fun x => ha.compose_assoc hb hc.valid,
      fun x y => ha.composeInWords_assoc hb hc.valid⟩

theorem compose_follows_views_pairs : ∃ (r : Region) (va vb vr : Block),
    Dataset.outerRows.composeInWords Dataset.secondColumn = .ok r ∧
      r.spans = [⟨2, -2, -2, 2⟩, ⟨1, 2, 1, 1⟩] ∧
      Dataset.pairRows.sliceViewInWords Dataset.outerRows = .ok va ∧
      va.sliceViewInWords Dataset.secondColumn = .ok vb ∧
      Dataset.pairRows.sliceViewInWords r = .ok vr ∧ vb.toList = vr.toList ∧
      vb.offset = vr.offset ∧ vb.strides = vr.strides := by
  obtain ⟨r, hr, hspans, hpos, hviews, hviews'⟩ : ∃ r : Region,
      Dataset.outerRows.composeInWords Dataset.secondColumn = .ok r ∧
      r.spans = [⟨2, -2, -2, 2⟩, ⟨1, 2, 1, 1⟩] ∧ 0 < r.size ∧
      Dataset.pairRows.ViewsInWords Dataset.outerRows ∧ Dataset.pairRows.ViewsInWords r :=
    ⟨_, rfl, rfl, by decide, by decide, by decide⟩
  obtain ⟨-, hwords, -, -, -, -, hview⟩ := compose_follows_views Dataset.built_outerRows
    Dataset.built_secondColumn (by decide)
  obtain ⟨va, vb, vr, hmeet⟩ :=
    hview Dataset.pairRows r (by decide +kernel) rfl rfl ((hwords r).mp hr).1
  obtain ⟨hva, hvb, hvr⟩ := hmeet.inWords hviews hviews'
  exact ⟨r, va, vb, vr, hr, hspans, hva, hvb, hvr, hmeet.toList_eq, hmeet.offset_eq hpos,
    hmeet.strides_eq hpos⟩

/-- The ends of a very long axis, the last one first. -/
def farEnds : Region :=
  ⟨[9223372036854775807], none, [⟨9223372036854775806, -1, -9223372036854775806, 2⟩], false, .none⟩

theorem built_farEnds : farEnds.Built :=
  @Built.ofSlices [9223372036854775807] [.range none none (-9223372036854775806)] farEnds rfl

/-- All of a region is a region of it whose bounds are words. Its stop is found by going twice the
length of the step, which is no word. -/
theorem unused_stop_stops_composition : farEnds.Built ∧ (full [2]).Built ∧
    (full [2]).source = farEnds.shape ∧
    (∃ r, farEnds.compose (full [2]) = .ok r ∧ r.spans.all Span.fits = true) ∧
    farEnds.composeInWords (full [2]) = .error (.fault .overflow) :=
  ⟨built_farEnds, .full _, rfl, ⟨_, rfl, by decide⟩, rfl⟩

end Region

end Hyperslab
