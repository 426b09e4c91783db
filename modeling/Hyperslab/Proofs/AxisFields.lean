import Hyperslab.Proofs.FieldsFit

/-!
# Fields along one axis

A field of values along one axis of a host has the rank of the host and unit axes but for its own,
which has a value for each position of the host's axis, or one for all of them. When the host is
sliced, reshaped or transposed, such a field is one along an axis again, as long as the host has
items and its axis remains an axis.
-/
namespace Hyperslab

open List Permutation Region Shape

/-! ## One axis among units -/

/-- A shape of unit axes but for one. -/
def Shape.along (rank axis n : Nat) : Shape := (List.replicate rank 1).set axis n

/-- Position `k` of one axis, at the start of every other. -/
def Position.along (rank axis k : Nat) : Position := (List.replicate rank 0).set axis k

namespace Shape

variable {rank axis n k : Nat} {s t : Shape} {q : Position}

@[simp] theorem length_along : length (along rank axis n) = rank := by simp [along]

@[simp] theorem length_position_along : length (Position.along rank axis k) = rank := by
  simp [Position.along]

theorem getElem?_along {i : Nat} (hi : i < rank) :
    (along rank axis n : List Nat)[i]? = some (if i = axis then n else 1) := by
  simp only [along, getElem?_set, length_replicate]
  by_cases h : axis = i
  · simp [h, hi]
  · simp [h, hi, Ne.symm h]

theorem getElem?_position_along {i : Nat} (hi : i < rank) :
    (Position.along rank axis k : List Nat)[i]? = some (if i = axis then k else 0) := by
  simp only [Position.along, getElem?_set, length_replicate]
  by_cases h : axis = i
  · simp [h, hi]
  · simp [h, hi, Ne.symm h]

/-- A shape is one axis among units if it is so entry by entry. -/
theorem eq_along (hlength : s.length = rank)
    (h : ∀ i d, (s : List Nat)[i]? = some d → d = if i = axis then n else 1) :
    s = along rank axis n := by
  refine ext_getElem? fun i => ?_
  by_cases hi : i < rank
  · have hd : (s : List Nat)[i]? = some (s.get ⟨i, hlength ▸ hi⟩) := by simp
    rw [hd, h i _ hd, getElem?_along hi]
  · rw [getElem?_eq_none (by omega), getElem?_eq_none (by simpa using hi)]

/-- What is read of one axis among units depends on that coordinate only. -/
theorem project_along (hq : q.length = rank) :
    (along rank axis n).project q =
      Position.along rank axis (if n = 1 then 0 else q.getD axis 0) := by
  rw [project_eq_zipWith (by simpa using hq)]
  refine ext_getElem? fun i => ?_
  by_cases hi : i < rank
  · have hc : (q : List Nat)[i]? = some (q.getD i 0) := by
      simp [hq ▸ hi]
    rw [getElem?_position_along hi]
    simp only [getElem?_zipWith, getElem?_along hi, hc]
    split
    · rename_i h
      rw [h]
    · rfl
  · rw [getElem?_eq_none (by simpa using Or.inl (not_lt.mp hi)),
      getElem?_eq_none (by simpa using hi)]

theorem pos_of_getElem? {i d : Nat} (hpos : 0 < s.size) (hd : (s : List Nat)[i]? = some d) :
    0 < d := by
  have hfirst := contains_iff_forall₂.mp (contains_origin hpos)
  exact rel_of_getElem? hfirst (by rw [origin, getElem?_map, hd]; rfl) hd

/-- A position of one axis is a position of a shape that has items and a long enough axis. -/
theorem contains_position_along (hpos : 0 < s.size)
    (hk : ∀ d, (s : List Nat)[axis]? = some d → k < d) :
    s.contains (Position.along s.length axis k) := by
  rw [contains_iff_forall₂, forall₂_iff_get]
  refine ⟨by simp, fun i hi hi' => ?_⟩
  have hd : (s : List Nat)[i]? = some (s.get ⟨i, hi'⟩) := by simp
  have hentry := @getElem?_position_along s.length axis k i hi'
  rw [getElem?_eq_getElem hi, Option.some.injEq] at hentry
  rw [get_eq_getElem, hentry]
  split
  · rename_i h
    exact hk _ (h ▸ hd)
  · exact pos_of_getElem? hpos hd

theorem size_along (h : axis < rank) : size (along rank axis n) = n := by
  rw [size_eq_prod, along, prod_set]
  simp [h]

theorem ravel_along (h : axis < rank) :
    ravel (along rank axis n) (Position.along rank axis k) = k := by
  induction rank generalizing axis with
  | zero => omega
  | succ rank ih =>
    cases axis with
    | zero =>
      have hzero : ravel (replicate rank 1) (replicate rank 0) = 0 := by
        clear ih h
        induction rank with
        | zero => rfl
        | succ rank ih => simp [replicate_succ, ih]
      have hone : size (replicate rank 1) = 1 := by simp [size_eq_prod]
      simp [along, Position.along, replicate_succ, hzero, hone]
    | succ axis =>
      have := @ih axis (by omega)
      simpa [along, Position.along, replicate_succ] using this

theorem positions_along (h : axis < rank) :
    positions (along rank axis n) = (range n).map (Position.along rank axis) := by
  rw [positions_eq, size_along h]
  refine map_congr_left fun k hk => ?_
  have hk : k < n := mem_range.mp hk
  have hsize : 0 < size (along rank axis n) := by
    rw [size_along h]
    omega
  have hcontains := @contains_position_along axis k _ hsize fun d hd => by
    rw [getElem?_along h, if_pos rfl, Option.some.injEq] at hd
    omega
  rw [length_along] at hcontains
  conv_lhs => rw [← ravel_along (n := n) (k := k) h]
  exact unravel_ravel hcontains

theorem apply_along {perm : List Nat} {i : Nat} (hperm : Orders perm rank)
    (hi : perm[i]? = some axis) : apply perm (along rank axis n) = along rank i n := by
  have hlt : ∀ a ∈ perm, a < length (along rank axis n) := fun a ha => by
    simpa using hperm.mem_iff.mp ha
  refine eq_along ?_ fun j d hd => ?_
  · rw [length_apply hlt, hperm.length_eq]
  · rw [getElem?_apply hlt] at hd
    obtain ⟨b, hb, hd⟩ := Option.bind_eq_some_iff.mp hd
    rw [getElem?_along (hperm.mem_iff.mp (mem_of_getElem? hb)), Option.some.injEq] at hd
    have hij : b = axis ↔ j = i := by
      constructor
      · rintro rfl
        have hj := (List.getElem?_eq_some_iff.mp hb).1
        exact (getElem?_inj hj hperm.nodup).mp (hb.trans hi.symm)
      · rintro rfl
        exact Option.some.inj (hb.symm.trans hi)
    simp only [hij] at hd
    exact hd.symm

/-- Axis `i` of `s` and axis `j` of `t` have the same length, and so many items lie before and
behind the one as before and behind the other. -/
def Aligned (s t : Shape) (i j : Nat) : Prop :=
  ∃ (s₁ s₂ t₁ t₂ : Shape) (n : Nat), s = s₁ ++ n :: s₂ ∧ t = t₁ ++ n :: t₂ ∧ s₁.length = i ∧
    t₁.length = j ∧ s₁.size = t₁.size ∧ s₂.size = t₂.size

/-- Positions with the same row-major number have the same coordinate on aligned axes. -/
theorem Aligned.getD_eq {i j : Nat} {p q : Position} (h : Aligned s t i j) (hp : s.contains p)
    (hq : t.contains q) (hravel : s.ravel p = t.ravel q) : p.getD i 0 = q.getD j 0 := by
  obtain ⟨s₁, s₂, t₁, t₂, n, rfl, rfl, rfl, rfl, -, hsize⟩ := h
  obtain ⟨p₁, p', rfl, hp₁, hp'⟩ := exists_of_contains_append hp
  obtain ⟨q₁, q', rfl, hq₁, hq'⟩ := exists_of_contains_append hq
  obtain ⟨x, p₂, rfl, hx, hp₂⟩ := exists_of_contains_cons hp'
  obtain ⟨y, q₂, rfl, hy, hq₂⟩ := exists_of_contains_cons hq'
  have hlast := ravel_lt hp'
  have hlast' := ravel_lt hq'
  rw [ravel_append (length_of_contains hp₁), ravel_append (length_of_contains hq₁)] at hravel
  simp only [ravel_cons, size_cons, hsize] at hravel hlast hlast'
  -- What lies before goes with the remainder, and what lies behind with the quotient.
  have hrest := congrArg (· % (n * t₂.size)) hravel
  simp only [Nat.mul_add_mod', Nat.mod_eq_of_lt hlast, Nat.mod_eq_of_lt hlast'] at hrest
  have hp₂lt := ravel_lt hp₂
  have hq₂lt := ravel_lt hq₂
  rw [hsize] at hp₂lt
  have hxy := congrArg (· / t₂.size) hrest
  simp only [Nat.mul_comm _ t₂.size, Nat.mul_add_div (by omega : t₂.size > 0),
    Nat.div_eq_of_lt hp₂lt, Nat.div_eq_of_lt hq₂lt] at hxy
  rw [← length_of_contains hp₁, ← length_of_contains hq₁]
  simpa using hxy

theorem ravel_origin (s : Shape) : s.ravel s.origin = 0 := by
  induction s with
  | nil => rfl
  | cons d s ih => simp [ih]

theorem Aligned.lt_length {i j : Nat} (h : Aligned s t i j) : i < s.length ∧ j < t.length := by
  obtain ⟨s₁, s₂, t₁, t₂, n, rfl, rfl, rfl, rfl, -⟩ := h
  simp

/-- What goes along with one axis among units has unit axes where the shapes are not aligned. -/
theorem Aligned.eq_one {i j m k d : Nat} {out : Shape} (h : Aligned s t i j)
    (hcarried : Carried s (along s.length i m) t out) (hpos : 0 < t.size)
    (hd : (out : List Nat)[k]? = some d) (hkj : k ≠ j) : d = 1 := by
  obtain ⟨hi, hj⟩ := h.lt_length
  have hlength : out.length = t.length := hcarried.out_fits.length_eq
  have hk : k < t.length := hlength ▸ (List.getElem?_eq_some_iff.mp hd).1
  by_contra hne
  -- The first two positions of the axis have the same coordinate on the aligned axis, so they read
  -- the same.
  have hq : t.contains (Position.along t.length k 1) := by
    refine contains_position_along hpos fun e he => ?_
    have hepos := pos_of_getElem? hpos he
    have hde := (rel_of_getElem? hcarried.out_fits hd he).resolve_right hne
    omega
  have hp := contains_unravel (hcarried.size_eq ▸ hpos) (t.ravel (Position.along t.length k 1))
  have hravel := ravel_unravel (hcarried.size_eq ▸ ravel_lt hq)
  have hzero : (Position.along t.length k 1 : List Nat).getD j 0 = 0 := by
    rw [getD_eq_getElem?_getD, getElem?_position_along hj, if_neg hkj.symm]
    rfl
  have hsame := hcarried.ravel_eq _ _ hp hq hravel
  rw [project_along (length_of_contains hp), h.getD_eq hp hq hravel, hzero, ite_self,
    ravel_along hi, ← ravel_origin out] at hsame
  have hproject := hcarried.out_fits.contains_project hq
  have horigin := ravel_inj (contains_origin (size_pos_of_contains hproject)) hproject hsame
  have hentry := congrArg (fun l : List Nat => l[k]?) horigin
  simp only [origin, getElem?_map, hd] at hentry
  rw [project_eq_zipWith (by simp [hlength])] at hentry
  simp [getElem?_zipWith, hd, getElem?_position_along hk, hne] at hentry

/-- One axis among units goes along to one axis among units if the two are aligned. -/
theorem Aligned.eq_along {i j m : Nat} {out : Shape} (h : Aligned s t i j)
    (hcarried : Carried s (along s.length i m) t out) (hpos : 0 < t.size) :
    out = along t.length j m := by
  obtain ⟨hi, hj⟩ := h.lt_length
  have hlength : out.length = t.length := hcarried.out_fits.length_eq
  obtain ⟨n, hn⟩ : ∃ n, (out : List Nat)[j]? = some n := ⟨_, getElem?_eq_getElem (hlength ▸ hj)⟩
  have hout : out = along t.length j n := by
    refine Shape.eq_along hlength fun k d hd => ?_
    by_cases hk : k = j
    · rw [if_pos hk]
      exact Option.some.inj ((hk ▸ hd).symm.trans hn)
    · rw [if_neg hk]
      exact h.eq_one hcarried hpos hd hk
  have hsize := hcarried.field_eq
  rw [size_along hi, hout, size_along hj] at hsize
  rw [hout, hsize]

end Shape

/-! ## Fields -/

namespace Field

def itemList (f : Field) : List (List Scalar) := f.items f.buffer

/-- The field holds values for the positions of an axis of the host, one for each position or one
for all of them. -/
structure Along (f : Field) (host : Shape) (axis : Nat) (values : List (List Scalar)) : Prop where
  follows : f.Follows host fun q => values.getD (if values.length = 1 then 0 else q.getD axis 0) []
  shape_eq : f.shape = Shape.along host.length axis values.length

variable {f g : Field} {host : Shape} {axis : Nat} {values : List (List Scalar)}

namespace Along

theorem length_eq (h : f.Along host axis values) {n : Nat} (hn : (host : List Nat)[axis]? = some n) :
    values.length = n ∨ values.length = 1 := by
  have haxis := (List.getElem?_eq_some_iff.mp hn).1
  have hentry : (f.shape : List Nat)[axis]? = some values.length := by
    rw [h.shape_eq, getElem?_along haxis, if_pos rfl]
  exact rel_of_getElem? h.follows.fits hentry hn

theorem itemList_eq (h : f.Along host axis values) (haxis : axis < host.length)
    (hpos : 0 < host.size) : f.itemList = values := by
  have hitems : f.itemList = f.shape.positions.map f.item := Frame.items_eq ..
  rw [hitems, h.shape_eq, positions_along haxis]
  refine ext_getElem (by simp) fun k hk hk' => ?_
  have hq : host.contains (Position.along host.length axis k) := by
    refine contains_position_along hpos fun d hd => ?_
    have hdpos := pos_of_getElem? hpos hd
    rcases h.length_eq hd with hlength | hlength <;> omega
  have hcoord : (Position.along host.length axis k : List Nat).getD axis 0 = k := by
    rw [getD_eq_getElem?_getD, getElem?_position_along haxis, if_pos rfl]
    rfl
  have hindex : (if values.length = 1 then 0 else k) = k := by
    split <;> omega
  have hitem := h.follows.item_eq _ hq
  rw [h.shape_eq, project_along (by simp), hcoord, hindex] at hitem
  simpa [hk'] using hitem

theorem dense (h : f.Along host axis values) : f.dense.Along host axis values :=
  ⟨h.follows.dense, h.shape_eq⟩

end Along

/-! ## Slices -/

theorem AxisFollows.count_eq {d n : Nat} {host own : Span} (h : AxisFollows d host own)
    (hown : own.Within d) (hhost : host.Within n) (hpos : 0 < host.count) :
    (d = 1 → own.count = 1) ∧ (d = n → own.count = host.count) := by
  have hownle := hown.count_le
  have hhostle := hhost.count_le
  have hfits := h.fits
  by_contra hne
  -- One position of the field would be read for two of the host.
  have hone : own.count = 1 := by omega
  have hd : d ≠ 1 := by omega
  have hfirst := h.coord_eq 0 (by omega)
  have hsecond := h.coord_eq 1 (by omega)
  rw [if_pos hone, if_neg hd] at hfirst hsecond
  exact absurd (Span.coord_inj hhost.step_ne (hfirst.symm.trans hsecond)) (by decide)

end Field

/-- The values along a sliced axis: those of the positions that are kept, counted from the start of
the span in its steps. One value for all positions stays. -/
def Span.kept (s : Span) (values : List (List Scalar)) : List (List Scalar) :=
  if values.length = 1 then values
  else (List.range s.count).map fun k => values.getD (s.coord k).toNat []

theorem Span.getD_kept {s : Span} {values : List (List Scalar)} {k : Nat} (hk : k < s.count) :
    (s.kept values).getD (if (s.kept values).length = 1 then 0 else k) [] =
      values.getD (if values.length = 1 then 0 else (s.coord k).toNat) [] := by
  unfold kept
  by_cases hone : values.length = 1
  · simp only [if_pos hone]
  · have hindex : (if s.count = 1 then 0 else k) = k := by
      split <;> omega
    simp [if_neg hone, hindex, hk]

namespace Field

variable {f g : Field} {host : Shape} {axis : Nat} {values : List (List Scalar)}

theorem Along.shape_slice {r : Region} {asView : Bool} {span : Span}
    (h : f.Along r.source axis values) (hr : r.Built)
    (hsmall : ∀ n ∈ r.source, n < Word.half) (hpos : 0 < size r.shape)
    (hspan : r.spans[axis]? = some span) (hg : f.followSlice r asView = .ok g) :
    g.shape = along r.shape.length axis (span.kept values).length := by
  simp only [followSlice, bind_eq_ok] at hg
  obtain ⟨slices, hslices, own, hown, hg⟩ := hg
  have hvalid := valid_ofSlices hown
  obtain ⟨hsource, hshape⟩ : own.source = f.shape ∧ g.shape = own.shape := by
    cases asView with
    | true => exact ⟨source_of_sliceView hg, (shows_sliceView h.follows.sound hvalid hg).2⟩
    | false =>
      have hshape := (shows_slice h.follows.sound hvalid hg).2
      simp only [Bool.false_eq_true, if_false, Field.slice, bind_eq_ok] at hg
      obtain ⟨v, hv, -⟩ := hg
      exact ⟨source_of_sliceView hv, hshape⟩
  obtain ⟨hrank, haxes⟩ := axisFollows_of_followSlices hr h.follows.fits hsmall
    (contains_origin hpos) hslices hown
  rw [hshape, length_shape]
  refine eq_along (by rw [length_shape, hrank]) fun i c hc => ?_
  simp only [shape, getElem?_map, Option.map_eq_some_iff] at hc
  obtain ⟨o, ho, rfl⟩ := hc
  have hi : i < r.rank := hrank ▸ (List.getElem?_eq_some_iff.mp ho).1
  have hi' : i < r.source.length := hr.valid.length_source ▸ hi
  obtain ⟨host, hhost⟩ : ∃ host, r.spans[i]? = some host := ⟨_, getElem?_eq_getElem hi⟩
  obtain ⟨n, hn⟩ : ∃ n, (r.source : List Nat)[i]? = some n := ⟨_, getElem?_eq_getElem hi'⟩
  have hentry : r.shape[i]? = some host.count := by simp [shape, hhost]
  have hd : (f.shape : List Nat)[i]? = some (if i = axis then values.length else 1) := by
    rw [h.shape_eq, getElem?_along hi']
  obtain ⟨hone, hall⟩ := (haxes i _ _ o hd hhost ho).count_eq
    (rel_of_getElem? (hsource ▸ hvalid.within) ho hd)
    (rel_of_getElem? hr.valid.within hhost hn) (pos_of_getElem? hpos hentry)
  by_cases haxis : i = axis
  · subst haxis
    obtain rfl : host = span := Option.some.inj (hhost.symm.trans hspan)
    rw [if_pos rfl] at hone hall ⊢
    by_cases hsingle : values.length = 1
    · rw [hone hsingle, Span.kept, if_pos hsingle, hsingle]
    · rw [hall ((h.length_eq hn).resolve_right hsingle), Span.kept, if_neg hsingle]
      simp
  · rw [if_neg haxis] at hone ⊢
    exact hone rfl

/-- Beside a slice of its host, a field along an axis has the values of the positions that are
kept. -/
theorem Along.slice {r : Region} {asView : Bool} {span : Span} (h : f.Along r.source axis values)
    (hr : r.Built) (hsmall : ∀ n ∈ r.source, n < Word.half) (hpos : 0 < size r.shape)
    (hspan : r.spans[axis]? = some span) (hg : f.followSlice r asView = .ok g) :
    g.Along r.shape axis (span.kept values) := by
  refine ⟨(h.follows.slice hr hsmall hpos hg).congr fun q hq => ?_,
    h.shape_slice hr hsmall hpos hspan hg⟩
  have hhalf : Word.half ≤ Word.modulus := by decide
  have hcount : (r.shape : List Nat)[axis]? = some span.count := by simp [shape, hspan]
  obtain ⟨k, hk⟩ : ∃ k, (q : List Nat)[axis]? = some k := by
    refine ⟨_, getElem?_eq_getElem ?_⟩
    rw [length_of_contains hq]
    exact (List.getElem?_eq_some_iff.mp hcount).1
  have hlt : k < span.count := rel_of_getElem? (contains_iff_forall₂.mp hq) hk hcount
  have hcoord : (r.sourcePosition q : List Nat).getD axis 0 = (span.coord k).toNat := by
    rw [hr.valid.sourcePosition_eq (fun n hn => ((hsmall n hn).trans_le hhalf).le) hq]
    simp [coords, getElem?_zipWith, hspan, hk]
  have hk : (q : List Nat).getD axis 0 = k := by rw [getD_eq_getElem?_getD, hk, Option.getD_some]
  rw [hcoord, hk, Span.getD_kept hlt]

/-! ## Other orders of axes -/

/-- In another order of axes, a field along an axis has its values along the axis that it became. -/
theorem Along.transpose {perm : List Nat} {i : Nat} (h : f.Along host axis values)
    (hperm : Orders perm host.length) (hi : perm[i]? = some axis)
    (hg : f.followTranspose perm = .ok g) : g.Along (apply perm host) i values := by
  have hlt : ∀ a ∈ perm, a < host.length := fun a ha => hperm.mem_iff.mp ha
  have hlength : (apply perm host).length = host.length := by
    rw [length_apply hlt, hperm.length_eq]
  refine ⟨(h.follows.transpose hperm hg).congr fun q hq => ?_, ?_⟩
  · have hqlength : q.length = host.length := by rw [length_of_contains hq, hlength]
    have happly := apply_apply_inverse (hqlength ▸ hperm)
    have hplength : (apply (inverse perm) q).length = host.length := by
      rw [length_apply (hqlength ▸ inverse_lt hperm), length_inverse, hperm.length_eq]
    generalize apply (inverse perm) q = p at happly hplength ⊢
    have hcoord : q[i]? = p[axis]? := by
      rw [← happly, getElem?_apply (fun a ha => hplength ▸ hlt a ha), hi, Option.bind_some]
    have hvalue : p.getD axis 0 = (q : List Nat).getD i 0 := by
      rw [getD_eq_getElem?_getD, getD_eq_getElem?_getD, hcoord]
    rw [hvalue]
  · have hrank : f.shape.length = host.length := h.follows.fits.length_eq
    have hperm' : Orders perm f.rank := by rwa [Frame.rank, hrank]
    rw [(shows_transposed h.follows.sound hperm' hg).2, h.shape_eq, apply_along hperm hi, hlength]

end Field

/-! ## Axes that stay under another shape -/

namespace AxisGroup.Grouped

variable {i j : Nat} {source target : Shape} {groups : List AxisGroup}

variable (h : Grouped i j source target groups)
include h

theorem size_eq : source.size = target.size := by
  induction h with
  | nil => rfl
  | @cons i j source target groups m n _ _ hsize _ _ ih =>
    rw [← take_append_drop m source, ← take_append_drop n target, size_append,
      size_append, hsize, ih]

theorem le_targetStart {g : AxisGroup} (hg : g ∈ groups) : j ≤ g.targetStart := by
  induction h with
  | nil => simp at hg
  | cons m n _ _ _ _ _ ih =>
    rcases mem_cons.mp hg with rfl | hg
    · exact le_rfl
    · exact (Nat.le_add_right _ _).trans (ih hg)

/-- A single axis that becomes a single axis is aligned with it. -/
theorem aligned {g : AxisGroup} (hg : g ∈ groups) (hsingle : g.isSingle) :
    ∃ a b, g.sourceStart = i + a ∧ g.targetStart = j + b ∧ Aligned source target a b := by
  induction h with
  | nil => simp at hg
  | @cons i j source target groups m n hm hn hsize hsame hrest ih =>
    rcases mem_cons.mp hg with rfl | hg
    · simp only [isSingle, Bool.and_eq_true, beq_iff_eq] at hsingle
      obtain ⟨rfl, rfl⟩ := hsingle
      obtain ⟨d, source, rfl⟩ := exists_cons_of_length_pos hm
      obtain ⟨e, target, rfl⟩ := exists_cons_of_length_pos hn
      obtain rfl : d = e := by simpa using hsame rfl rfl
      exact ⟨0, 0, rfl, rfl, [], source, [], target, d, rfl, rfl, rfl, rfl, rfl,
        by simpa using hrest.size_eq⟩
    · obtain ⟨a, b, ha, hb, s₁, s₂, t₁, t₂, d, hs, ht, rfl, rfl, hfirst, hlast⟩ := ih hg
      refine ⟨m + s₁.length, n + t₁.length, by omega, by omega, source.take m ++ s₁, s₂,
        target.take n ++ t₁, t₂, d, ?_, ?_, by simp [hm], by simp [hn], ?_, hlast⟩
      · rw [append_assoc, ← hs, take_append_drop]
      · rw [append_assoc, ← ht, take_append_drop]
      · rw [size_append, size_append, hsize, hfirst]

/-- Entries that are carried over group by group are carried over axis by axis. -/
theorem flatMap_eq {α : Type} (items : List (Option α)) :
    (groups.flatMap fun g =>
      if g.isSingle then [(items[g.sourceStart]?).join] else replicate g.targetLength none) =
      (range target.length).map fun k =>
        (groups.find? fun g => g.isSingle && g.targetStart == j + k).bind fun g =>
          (items[g.sourceStart]?).join := by
  induction h with
  | nil => rfl
  | @cons i j source target groups m n hm hn _ _ hrest ih =>
    have hlength : target.length = n + (target.drop n).length := by
      rw [length_drop]
      omega
    rw [flatMap_cons, ih, hlength, range_add, map_append, map_map]
    congr 1
    · by_cases hsingle : isSingle ⟨i, m, j, n⟩ = true
      · have hn : n = 1 := by simpa [isSingle] using (Bool.and_eq_true_iff.mp hsingle).2
        subst hn
        simp [hsingle]
      · rw [if_neg hsingle, map_congr_left, map_const', length_range]
        intro k hk
        have hnone : (groups.find? fun g => g.isSingle && g.targetStart == j + k) = none := by
          rw [find?_eq_none]
          intro g hg
          have := hrest.le_targetStart hg
          have := mem_range.mp hk
          simp
          omega
        simp [hsingle, hnone]
    · refine map_congr_left fun k _ => ?_
      have hfirst : (isSingle ⟨i, m, j, n⟩ && j == j + (n + k)) = false := by
        by_cases hn : n = 0
        · simp [isSingle, hn]
        · simp
          omega
      simp [hfirst, Nat.add_assoc]

end AxisGroup.Grouped

namespace Regrouping

variable {s t : Shape} {i j : Nat} {map : Regrouping}

/-- The axis of `s` that alone becomes axis `j` of `t`, if there is one. -/
def keptAxis? (s t : Shape) (j : Nat) : Option Nat :=
  match AxisGroup.between 0 0 s t with
  | .ok groups =>
      (groups.find? fun g => g.isSingle && g.targetStart == j).map AxisGroup.sourceStart
  | .error _ => none

theorem aligned_of_keptAxis (h : keptAxis? s t j = some i) : Aligned s t i j := by
  unfold keptAxis? at h
  split at h
  · rename_i groups hgroups
    obtain ⟨g, hfind, rfl⟩ := Option.map_eq_some_iff.mp h
    have hg := find?_some hfind
    simp only [Bool.and_eq_true, beq_iff_eq] at hg
    obtain ⟨a, b, ha, hb, haligned⟩ :=
      (AxisGroup.grouped_of_between hgroups).aligned (mem_of_find?_eq_some hfind) hg.1
    rw [ha, ← hg.2, hb, Nat.zero_add, Nat.zero_add]
    exact haligned
  · simp at h

/-- Entries are carried over to the axes that are kept, and no others. -/
theorem remapAxes_eq_ok {α : Type} {items out : List (Option α)} (hmap : of s t = .ok map)
    (h : map.remapAxes items = .ok out) :
    out = (range t.length).map fun j => (keptAxis? s t j).bind fun i => (items[i]?).join := by
  obtain ⟨-, -, -, hbetween⟩ := of_eq_ok hmap
  simp only [remapAxes, bind_eq_ok, pure_eq_ok] at h
  obtain ⟨groups, hgroups, rfl⟩ := h
  have hfound : map.found = .ok groups := by
    unfold Regrouping.groups at hgroups
    split at hgroups
    · simp_all
    · simp at hgroups
  have hbetween := hbetween groups hfound
  rw [(AxisGroup.grouped_of_between hbetween).flatMap_eq]
  simp only [keptAxis?, hbetween, Nat.zero_add, Option.bind_map]
  rfl

end Regrouping

/-- Under another shape of its host, a field along an axis that is kept has its values there. -/
theorem Field.Along.reshape {f g : Field} {host t : Shape} {axis j : Nat}
    {values : List (List Scalar)} {map : Regrouping} (h : f.Along host axis values)
    (hmap : Regrouping.of host t = .ok map) (hkept : Regrouping.keptAxis? host t j = some axis)
    (hpos : 0 < t.size) (hg : f.followReshape map = .ok g) : g.Along t j values := by
  have haligned := Regrouping.aligned_of_keptAxis hkept
  have hsize := (Regrouping.of_eq_ok hmap).1
  refine ⟨(h.follows.reshape hmap hg).congr fun q hq => ?_, ?_⟩
  · rw [haligned.getD_eq (contains_unravel (hsize ▸ hpos) _) hq
      (ravel_unravel (hsize ▸ ravel_lt hq))]
  · simp only [followReshape, bind_eq_ok] at hg
    obtain ⟨out, hout, hg⟩ := hg
    have hcarried := Regrouping.carried_reshapeShape hmap h.follows.fits hout
    rw [h.shape_eq] at hcarried
    rw [shape_reshape hg, haligned.eq_along hcarried hpos]

end Hyperslab
