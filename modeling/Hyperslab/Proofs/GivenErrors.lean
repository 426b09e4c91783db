import Hyperslab.Proofs.Tilings

/-!
# Given errors

Errors in another buffer are copied as doubles and attached with the rank of their host. They are
accepted if each of their axes is that of the host or a unit axis, and the errors of all items are
the given ones from then on. Errors in the buffer of the host are passed over.
-/
namespace Hyperslab

open Shape

open Dataset

theorem Dataset.checkErrors_of_broadcastsTo {β : Type} {d : Dataset β} {e : Shape}
    (h : e.BroadcastsTo d.shape) : d.checkErrors e = .ok () := by
  obtain ⟨hfits, hrank⟩ := fits_pad_iff.mpr h
  have hjoin : joinAxes d.shape (e.pad d.shape.length) = some d.shape := by
    rw [joinAxes_comm]
    exact hfits.joinAxes_eq
  have hbroadcast : broadcast d.shape e = .ok d.shape := by
    simp only [broadcast, if_neg (Nat.not_lt.mpr hrank), hjoin]
  have hrank : ¬ d.rank < e.length := Nat.not_lt.mpr hrank
  simp only [checkErrors, if_neg hrank, hbroadcast, ok_bind, ne_eq, not_true, if_false]
  rfl

theorem Dataset.checkErrors_of_not {β : Type} {d : Dataset β} {e : Shape}
    (h : ¬ e.BroadcastsTo d.shape) : ∃ a b, d.checkErrors e = .error (.incompatibleShapes a b) := by
  cases hcheck : d.checkErrors e with
  | ok u => exact absurd (fits_pad_iff.mp (checkErrors_eq_ok hcheck).symm) h
  | error x =>
    unfold checkErrors at hcheck
    split at hcheck
    · exact ⟨_, _, hcheck.symm⟩
    rename_i hrank
    have hrank : ¬ d.shape.length < e.length := hrank
    simp only [broadcast, if_neg hrank] at hcheck
    cases hjoined : d.shape.joinAxes (e.pad d.shape.length) with
    | some s =>
      simp only [hjoined, ok_bind] at hcheck
      split at hcheck
      · exact ⟨_, _, hcheck.symm⟩
      · cases hcheck
    | none =>
      rw [hjoined] at hcheck
      exact ⟨_, _, hcheck.symm⟩

theorem Handle.run_setErrorsInWords {h e : Handle} {s : Store} (he : e.Held s)
    (hroom : e.shape.room e.itemSize < Word.half) (hapart : e.sharesBuffer h = false)
    (hcheck : h.checkErrors e.shape = .ok ()) : ∃ d : Handle,
      Dataset.setErrors h (s.read e).field = .ok d ∧ (h.setErrorsInWords e).run s =
        ((do Word.ensure (Word.AllFit e.geometry.walkNumbers); .ok d), s) := by
  have hk : 0 < e.itemSize := he.sound.inside.itemSize_pos
  have hpad : (e.shape.pad h.rank).stridesFit e.itemSize :=
    stridesFit_of_room hk (by rwa [room_pad])
  have hstrides : e.HasStrides := fun _ => stridesFit_of_room hk hroom
  obtain ⟨c, hc⟩ := Option.isSome_iff_exists.mp (sizeChecked_of_room hk hroom)
  obtain ⟨map, hmap⟩ := Regrouping.exists_of_iff.mpr
    (⟨c, hc, by rw [sizeChecked_pad, hc]⟩ : e.shape.SameSize (e.shape.pad h.rank))
  obtain ⟨d, hd⟩ : ∃ d, Dataset.setErrors h (s.read e).field = .ok d := by
    have hread : (s.read e).field.checkRead = .ok () := check_eq_ok.mpr he.sound.fault_eq_none
    have hshape : (s.read e).field.shape = e.shape := rfl
    have hcast : ((s.read e).field.cast .double).shape = e.shape := rfl
    simp only [Dataset.setErrors, Metadata.setErrors, Field.reshape, hread, hshape, hcast, hmap,
      hcheck, ok_bind, pure_bind]
    exact ⟨_, rfl⟩
  refine ⟨d, hd, ?_⟩
  simp only [setErrorsInWords, setErrors, hapart, Bool.false_eq_true, if_false, run_bind, run_lift,
    hcheck, andThen_ok, Frame.checkWalk_eq, Shape.stridesChecked, hpad, if_true]
  by_cases hwalk : Word.AllFit e.geometry.walkNumbers
  · rw [Word.ensure_of ⟨hstrides, hwalk⟩, Word.ensure_of hwalk]
    simp only [andThen_ok, run_bind, run_lift, run_peek, hd, ok_bind]
  · rw [Word.ensure_of_not fun h => hwalk h.2, Word.ensure_of_not hwalk]
    rfl

/-- **Attached errors are the errors given.** A dataset over another buffer is attached just if its
shape broadcasts and it can be walked in words, as a packed one always can be. From then on,
whatever is written, the errors of all items are those given, as doubles, where there is room for
them. A host without items is asked to take up few words. -/
theorem Handle.errors_attached_as_given {h e : Handle} {s : Store} (he : e.Held s)
    (hroomy : e.Roomy) (hapart : e.sharesBuffer h = false)
    (hempty : h.size = 0 → h.shape.room e.itemSize < Word.half) :
    (¬ e.shape.BroadcastsTo h.shape →
      ∃ a b, (h.setErrorsInWords e).run s = (.error (.incompatibleShapes a b), s)) ∧
    (e.shape.BroadcastsTo h.shape → ∃ d : Handle, d = { h with metadata := d.metadata } ∧
      (h.setErrorsInWords e).run s =
        ((do Word.ensure (Word.AllFit e.geometry.walkNumbers); .ok d), s) ∧
      (e.layout = .dense → (h.setErrorsInWords e).run s = (.ok d, s)) ∧
      ∀ m, elementCount h.shape e.itemSize = .ok m → ∀ s' : Store,
        ∃ b, (s'.read d).errorsBroadcast? = some b ∧ b.shape = h.shape ∧
          ∀ p, h.shape.contains p = true →
            (s.read e).getItem (e.shape.project p) = .ok ((s.read e).item (e.shape.project p)) ∧
            b.getItem p = .ok (((s.read e).item (e.shape.project p)).map Kind.double.cast)) := by
  refine ⟨fun hnot => ?_, fun hbroadcasts => ?_⟩
  · obtain ⟨a, b, hcheck⟩ := checkErrors_of_not (d := h) hnot
    refine ⟨a, b, ?_⟩
    simp only [setErrorsInWords, hapart, Bool.false_eq_true, if_false, run_bind, run_lift, hcheck,
      andThen_error]
  · have hroom : e.shape.room e.itemSize < Word.half := by
      obtain ⟨hfits, -⟩ := Shape.fits_pad_iff.mpr hbroadcasts
      rcases Nat.eq_zero_or_pos e.shape.size with hzero | hpos
      · have hpad := hfits.room_le e.itemSize
        rw [Shape.room_pad] at hpad
        exact hpad.trans_lt (hempty (hfits.size_eq_zero (by rwa [Shape.size_pad])))
      · exact he.sound.room_lt hpos
    obtain ⟨d, hset, hrun⟩ :=
      run_setErrorsInWords he hroom hapart (checkErrors_of_broadcastsTo hbroadcasts)
    obtain ⟨hd, hcontains, f, hf, hsize, hfollows⟩ :=
      Dataset.setErrors_eq_ok (e := (s.read e).field) he.sound hroomy hset
    refine ⟨d, hd, hrun, fun hdense => ?_, fun m hm s' => ?_⟩
    · rw [hrun, Word.ensure_of (Frame.Sound.allFit_walkNumbers_of_dense he.sound hdense)]
      rfl
    · have hshape : (s'.read d).shape = h.shape := by rw [hd]; rfl
      obtain ⟨b, hb, hbshape, hitem⟩ := Metadata.Carries.exists_errorsBroadcast (d := s'.read d) hf
        (hshape ▸ hfollows) (by rw [hshape, hsize]; exact hm)
      rw [hshape] at hbshape hitem
      exact ⟨b, hb, hbshape, fun p hp =>
        ⟨Sound.getItem_eq_ok (d := s.read e) he.sound (hcontains p hp), hitem p hp⟩⟩

/-- A dataset with a buffer of a store that has it there. -/
def Dataset.atBuffer (d : Block) (id : BufferId) : Handle :=
  { d.toFrame with buffer := id, metadata := .empty }

theorem Handle.errors_attached_as_given_columns : ∃ (s : Store) (h e d : Handle),
    h.shape = [2, 3] ∧ e.shape = [3] ∧
      (h.setErrorsInWords e).run s = (.ok d, s) ∧ ∀ s' : Store, ∃ b,
        (s'.read d).errorsBroadcast? = some b ∧
          b.getItem [1, 2] = .ok (((s.read e).item [2]).map Kind.double.cast) := by
  let grid := ofList (.int true .w32) [2, 3] 1 ([0, 1, 2, 3, 4, 5].map Scalar.int)
  let columns := ofList (.int true .w32) [3] 1 ([10, 20, 30].map Scalar.int)
  let s : Store := ⟨#[grid.buffer, columns.buffer]⟩
  have hheld : (columns.atBuffer 1).Held s := ⟨by decide, made_columns.sound⟩
  have hbroadcasts : (columns.atBuffer 1).shape.BroadcastsTo (grid.atBuffer 0).shape :=
    ⟨[3], ⟨[2], rfl⟩, Shape.fits_refl [3]⟩
  obtain ⟨d, -, -, hset, herrors⟩ := (Handle.errors_attached_as_given (h := grid.atBuffer 0) hheld
    made_columns.roomy rfl (by decide)).2 hbroadcasts
  refine ⟨s, grid.atBuffer 0, columns.atBuffer 1, d, rfl, rfl, hset rfl, fun s' => ?_⟩
  obtain ⟨b, hb, -, hitem⟩ := herrors 6 rfl s'
  exact ⟨b, hb, (hitem [1, 2] rfl).2⟩

/-- One half of four items and the other. -/
def halfRow (lo : Nat) : Region := ⟨[4], none, [⟨lo, lo + 2, 1, 2⟩], false, .none⟩

/-- Errors beside the data, in the same buffer, are passed over like the data itself. -/
theorem Handle.errors_beside_data_ignored : ∃ (s : Store) (h d e : Handle),
    (adopt (ofList (.int true .w32) [4] 1 ([0, 1, 2, 3].map Scalar.int))).run .empty = (.ok h, s) ∧
    h.sliceView (halfRow 0) = .ok d ∧ h.sliceView (halfRow 2) = .ok e ∧ d.offset = 0 ∧ e.offset = 2 ∧
    e.shape = d.shape ∧ (d.setErrorsInWords e).run s = (.ok d, s) ∧
    (s.read d).errorsBroadcast?.isNone = true :=
  ⟨_, _, _, _, rfl, rfl, rfl, rfl, rfl, rfl, rfl, rfl⟩

end Hyperslab
