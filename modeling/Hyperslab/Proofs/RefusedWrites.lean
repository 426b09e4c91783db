import Hyperslab.Proofs.Growth

/-!
# Refused writes to storage in memory

Storage grows before the data of a write is looked at. So a write that is refused leaves the
storage as it was unless the storage had to grow, and then it leaves the storage grown: the old
items are where they were, and the new ones have the fill value.
-/
namespace Hyperslab.Memory

open Dataset List Region

variable {m m' : Memory} {r : Region} {data : Block} {e : IoFailure}

/-- A write to the region makes the storage grow: the region lies in another shape, which is nowhere
shorter and can be set aside. -/
def Grows (m : Memory) (r : Region) : Prop :=
  r.source ≠ m.stored.shape ∧ m.canGrowTo r = true ∧ ∃ larger, m.grown r.source = .ok larger

/-! ## Growing -/

theorem canGrowTo_iff (hr : r.Valid) : m.canGrowTo r ↔ Forall₂ (· ≤ ·) m.stored.shape r.source := by
  have hflip : Forall₂ (· ≤ ·) m.stored.shape r.source ↔
      Forall₂ (flip (· ≤ ·)) r.source m.stored.shape := ⟨Forall₂.flip, Forall₂.flip⟩
  have hrank : m.stored.rank = m.stored.shape.length := rfl
  simp only [canGrowTo, hflip, Bool.and_eq_true, beq_iff_eq, hrank, ← hr.length_source,
    forall₂_iff_zip, all_eq_true, decide_eq_true_eq]
  constructor
  · rintro ⟨hlength, hle⟩
    exact ⟨hlength, fun {a b} hab => hle (a, b) hab⟩
  · rintro ⟨hlength, hle⟩
    exact ⟨hlength, fun _ hab => hle hab⟩

theorem toFrame_grown {s : Shape} {larger : Block} (h : m.grown s = .ok larger) :
    larger.toFrame = Frame.packed m.stored.kind m.stored.name s m.stored.itemSize := by
  simp only [Memory.grown, bind_eq_ok, pure_eq_ok] at h
  obtain ⟨z, hz, -, -, f, hf, old, -, e, he, rfl⟩ := h
  have hframe : e.toFrame = Frame.packed m.stored.kind "" s m.stored.itemSize :=
    (toFrame_setSliceInWords he).trans ((toFrame_fill hf).trans (zeros_eq_ok hz).1)
  simp only [withName, hframe]
  rfl

theorem grown_eq_ok {s : Shape} {larger : Block} (h : m.grown s = .ok larger) :
    larger.shape = s ∧ larger.itemSize = m.stored.itemSize :=
  ⟨congrArg Frame.shape (toFrame_grown h), (congrArg Frame.itemSize (toFrame_grown h)).trans rfl⟩

/-- Storage grows to a shape with items, nowhere shorter than its own, whenever that shape can be
set aside, or is stopped on the way. -/
theorem grown_of_sound {s : Shape} {l : Nat} (h : m.stored.Sound) (hs : 0 < s.size)
    (hle : Forall₂ (· ≤ ·) m.stored.shape s)
    (hl : reserve m.stored.kind s m.stored.itemSize = .ok l) :
    (∃ larger, m.grown s = .ok larger) ∨ ∃ f, m.grown s = .error (.fault f) := by
  obtain ⟨z, hz⟩ : ∃ z, zeros m.stored.kind m.stored.itemSize s = .ok z := by
    simp only [zeros, fullOf, bind_eq_ok, checkItemSize_eq_ok, pure_eq_ok]
    exact ⟨_, (), h.itemSize_pos, l, hl, rfl⟩
  obtain ⟨hzframe, hzsound, -, hzsep, -⟩ := zeros_eq_ok hz
  obtain ⟨f, hf⟩ : ∃ f, z.fill m.fill = .ok f := ⟨_, hzsound.fill_eq_ok m.fill⟩
  obtain ⟨hfframe, hfsound, -⟩ := hzsound.fill_items hzsep hf
  have hframe : f.toFrame = Frame.packed m.stored.kind "" s m.stored.itemSize :=
    hfframe.trans hzframe
  have hshape : f.shape = s := congrArg Frame.shape hframe
  have hsize : f.itemSize = m.stored.itemSize := (congrArg Frame.itemSize hframe).trans rfl
  have hold := ofSlices_leading hle fun _ hd => lt_half_of_zeros hs hz hd
  simp only [grown, hz, ok_bind, hf, hold, Frame.checkWalk_eq, setSliceInWords, bind_assoc]
  rcases Word.follows_ensure (z.HasStrides ∧ Word.AllFit z.geometry.walkNumbers) _ with hgoes | hstops
  · rw [hgoes]
    rcases hfsound.writeSliceInWords_of_shape (valid_ofSlices hold) hshape.symm h
      (shape_full m.stored.shape).symm (.inl hsize.symm) with ⟨w, hw⟩ | hw
    · rw [hw, ok_bind, Written.finish]
      cases w.stop with
      | none => exact .inl ⟨_, rfl⟩
      | some f => exact .inr ⟨f, rfl⟩
    · exact .inr ⟨.overflow, by rw [hw]; rfl⟩
  · exact .inr ⟨.overflow, hstops⟩

/-- Storage that is not stopped in preparing for a region grows if the region lies in another shape,
nowhere shorter, that can be set aside. -/
theorem Holds.grows_iff {k : Kind} {n : Nat} {c : Contents} (h : m.Holds k n c) (hr : r.Valid)
    (hs : 0 < Shape.size r.source) (hgoes : ∀ f, m.prepared r ≠ .error (.fault f)) :
    m.Grows r ↔ r.source ≠ c.shape ∧ Forall₂ (· ≤ ·) c.shape r.source ∧
      ∃ l, reserve k r.source n = .ok l := by
  rw [Grows, canGrowTo_iff hr, h.shape_eq]
  refine and_congr_right fun hne => and_congr_right fun hle => ⟨?_, ?_⟩
  · rintro ⟨larger, hlarger⟩
    simp only [Memory.grown, bind_eq_ok, h.itemSize_eq, h.plain.kind_eq] at hlarger
    obtain ⟨z, hz, -⟩ := hlarger
    obtain ⟨-, -, -, -, -, hl⟩ := zeros_eq_ok hz
    exact hl
  · rintro ⟨l, hl⟩
    refine (grown_of_sound h.plain.sound hs (h.shape_eq ▸ hle)
      (by rwa [h.plain.kind_eq, h.itemSize_eq])).resolve_right ?_
    rintro ⟨f, hf⟩
    refine hgoes f ?_
    rw [Memory.prepared, if_neg (h.shape_eq ▸ hne),
      if_pos ((canGrowTo_iff hr).mpr (h.shape_eq ▸ hle)), hf]
    rfl

theorem prepared_eq_ok (h : m.prepared r = .ok m') :
    ¬ m.Grows r ∧ m' = m ∨
      m.Grows r ∧ ∃ larger, m.grown r.source = .ok larger ∧ m' = { m with stored := larger } := by
  rw [prepared] at h
  split at h
  · next hsource =>
    cases h
    exact .inl ⟨fun hgrows => hgrows.1 hsource, rfl⟩
  · next hsource =>
    split at h
    · next hcan =>
      simp only [bind_eq_ok, pure_eq_ok] at h
      obtain ⟨larger, hlarger, rfl⟩ := h
      exact .inr ⟨⟨hsource, hcan, larger, hlarger⟩, larger, hlarger, rfl⟩
    · cases h

theorem not_grows_of_prepared_eq_error {err : Error} (h : m.prepared r = .error err) :
    ¬ m.Grows r := by
  rintro ⟨hsource, hcan, larger, hlarger⟩
  rw [prepared, if_neg hsource, if_pos hcan, hlarger] at h
  cases h

/-! ## Refusals -/

section

variable (h : write r data m = (.error e, m')) (he : ∀ f, e.kind ≠ .stopped f)
include h he

/-- A write that is refused and not stopped has done nothing but prepare the storage. -/
theorem write_eq_error : ¬ m.Grows r ∧ m' = m ∨ m.prepared r = .ok m' := by
  cases hm : m.prepared r with
  | error err =>
    simp only [write, hm, Prod.mk.injEq] at h
    exact .inl ⟨not_grows_of_prepared_eq_error hm, h.2.symm⟩
  | ok p =>
    cases hw : p.stored.writeSliceInWords r data with
    | error err =>
      simp only [write, hm, hw, Prod.mk.injEq] at h
      exact .inr (congrArg Except.ok h.2)
    | ok w =>
      -- The data was taken, so only a fault can have ended the write.
      simp only [write, hm, hw, Prod.mk.injEq] at h
      cases hstop : w.stop with
      | none =>
        rw [hstop] at h
        cases h.1
      | some f =>
        rw [hstop] at h
        cases h.1
        exact absurd rfl (he f)

theorem prepared_ne_fault (f : Fault) : m.prepared r ≠ .error (.fault f) := by
  intro hstops
  rw [write, hstops] at h
  cases h
  exact he f rfl

theorem eq_of_refused :
    ¬ m.Grows r ∧ m' = m ∨
      m.Grows r ∧ ∃ larger, m.grown r.source = .ok larger ∧ m' = { m with stored := larger } := by
  rcases write_eq_error h he with hkept | hprepared
  · exact .inl hkept
  · exact prepared_eq_ok hprepared

end

/-- **A refused write leaves the storage alone unless it made it grow.** It has grown to the shape
of the region's source then, with items of the same size. Storage that holds contents has to grow
exactly when this is another shape, nowhere shorter, that can be set aside; it still has its items
where they were, and the fill value everywhere else. -/
theorem refused_write_keeps_or_grows (h : write r data m = (.error e, m'))
    (he : ∀ f, e.kind ≠ .stopped f) :
    (m'.stored = m.stored ↔ ¬ m.Grows r) ∧ m'.fill = m.fill ∧ m'.isWriteable = m.isWriteable ∧
      (m.Grows r → m'.stored.shape = r.source ∧ m'.stored.itemSize = m.stored.itemSize) ∧
      ∀ k n c, m.Holds k n c → r.Valid → 0 < Shape.size r.source →
        (m.Grows r ↔ r.source ≠ c.shape ∧ List.Forall₂ (· ≤ ·) c.shape r.source ∧
          ∃ l, reserve k r.source n = .ok l) ∧
        (m.Grows r → ∀ q, r.source.contains q = true → m'.stored.getItem q =
          .ok (if c.shape.contains q then c.item q else List.replicate n c.fill)) := by
  have hgoes := prepared_ne_fault h he
  rcases eq_of_refused h he with ⟨hgrows, rfl⟩ | ⟨hgrows, larger, hlarger, rfl⟩
  · refine ⟨⟨fun _ => hgrows, fun _ => rfl⟩, rfl, rfl, fun h => absurd h hgrows, ?_⟩
    exact fun k n c hc hr hs => ⟨hc.grows_iff hr hs hgoes, fun h => absurd h hgrows⟩
  obtain ⟨hshape, hsize⟩ := grown_eq_ok hlarger
  refine ⟨⟨fun hsame => ?_, fun h => absurd hgrows h⟩, rfl, rfl, fun _ => ⟨hshape, hsize⟩, ?_⟩
  · have hsame : larger = m.stored := hsame
    exact absurd (hshape.symm.trans (congrArg (fun d : Block => d.shape) hsame)) hgrows.1
  · intro k n c hc hr hs
    refine ⟨hc.grows_iff hr hs hgoes, fun _ q hq => ?_⟩
    have hholds := hc.grown hs ((hc.grows_iff hr hs hgoes).mp hgrows).2.1 hlarger
    have hq' : larger.shape.contains q = true := hshape ▸ hq
    rw [hholds.plain.sound.getItem_eq_ok hq', hholds.item_eq q hq]
    rfl

/-- Storage of two items. -/
def pair : Memory := of (Dataset.ofList (.int true .w32) [2] 1 ([1, 2].map Scalar.int))

/-- The two places behind the items of `pair`. -/
def behindPair : Region := ⟨[4], some [4], [⟨2, 4, 1, 2⟩], true, .none⟩

/-- Three items, which do not fit two places. -/
def threeItems : Block := Dataset.ofList (.int true .w32) [3] 1 ([7, 8, 9].map Scalar.int)

theorem built_behindPair : behindPair.Built :=
  @Built.ofSlicesWithin [2] [4] [.range (some 2) (some 4) 1] behindPair rfl

theorem refused_write_keeps_or_grows_pair : ∃ e m',
    write behindPair threeItems pair = (.error e, m') ∧ (∀ f, e.kind ≠ .stopped f) ∧
      pair.Grows behindPair ∧ m'.stored ≠ pair.stored ∧ m'.stored.shape = [4] ∧
      m'.stored.getItem [1] = .ok [.int 2] ∧ m'.stored.getItem [3] = .ok [.int 0] := by
  have hplain : pair.stored.Plain (.int true .w32) :=
    Dataset.plain_ofList (by decide) rfl (by decide) (by decide)
  have hapart : pair.stored.geometry.Separate := Frame.separate_packed (by decide) (by decide)
  have hholds : pair.Holds (.int true .w32) 1 ⟨[2], .int 0, pair.stored.item⟩ :=
    ⟨hplain, rfl, hapart, rfl, fun _ _ => rfl, rfl, by decide, rfl⟩
  obtain ⟨e, m', hwrite, hrefused⟩ : ∃ e m', write behindPair threeItems pair = (.error e, m') ∧
      ∀ f, e.kind ≠ .stopped f := ⟨_, _, rfl, fun _ => nofun⟩
  obtain ⟨hkept, -, -, hshape, hcontents⟩ := refused_write_keeps_or_grows hwrite hrefused
  obtain ⟨hiff, hitems⟩ := hcontents _ _ _ hholds built_behindPair.valid (by decide)
  have hgrows : pair.Grows behindPair :=
    hiff.mpr ⟨by decide, .cons (by decide) .nil, 4, rfl⟩
  exact ⟨e, m', hwrite, hrefused, hgrows, fun h => hkept.mp h hgrows, (hshape hgrows).1,
    hitems hgrows [1] rfl, hitems hgrows [3] rfl⟩

/-- A write is refused, and the storage is not what it was. -/
theorem refused_write_lengthens_storage : ∃ m r data e m', r.Built ∧
    write r data m = (.error e, m') ∧ e.kind = .invalidInput ∧ m.stored.shape = [2] ∧
      m'.stored.shape = [4] :=
  ⟨pair, behindPair, threeItems, _, _, built_behindPair, rfl, rfl, rfl, rfl⟩

end Hyperslab.Memory
