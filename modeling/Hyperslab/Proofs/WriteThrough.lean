import Hyperslab.Proofs.Courses
import Hyperslab.Proofs.Origins

/-!
# Writing through views

A dataset that was made with a buffer is the root of all datasets that are derived from it and share
the buffer. Each position of such a dataset denotes one position of the root, and two positions
never denote the same one unless items were repeated on the way. So an item that is written through
the dataset is written to the root in one place, and datasets of other roots do not see it.
-/
namespace Hyperslab

open Dataset List

/-- The operation copies items into a new buffer whatever the layout. -/
def ViewOp.packs : ViewOp → Bool
  | copy | slice .. => true
  | _ => false

/-- What a dataset was derived from. -/
structure Lineage where
  /-- The dataset that was made with the buffer. -/
  root : Handle
  /-- The position of the root that a position denotes. -/
  lead : Position → Position
  /-- No item was repeated on the way. -/
  apart : Bool

namespace Lineage

/-- The lineage of a dataset that was made with its buffer. -/
def ofRoot (h : Handle) : Lineage := ⟨h, id, true⟩

/-- A dataset that shares the buffer of the one it is derived from has the same root, and its
positions denote what the positions denote that they come from. A copy of items is a new root. -/
def notes : Notes Lineage where
  made := ofRoot
  derived _ e op v :=
    if op.packs || !v.sharesBuffer e.1 then ofRoot v
    else
      { root := e.2.root
        lead := fun q => e.2.lead (op.origin e.1.shape v.shape q)
        apart := e.2.apart && !op.repeats }
  written e _ := e.2
  summarized _ e _ := e.2

/-- What a lineage says is true: the dataset is over the buffer of its root, whose items lie apart,
and shows the items that its positions denote. -/
structure Traced (s : Store) (e : Handle × Lineage) : Prop where
  root_held : e.2.root.Held s
  separate : e.2.root.geometry.Separate
  buffer_eq : e.1.buffer = e.2.root.buffer
  shows : e.2.apart = true → e.1.geometry.Shows e.2.root.geometry e.2.lead
  injective : e.2.apart = true → ∀ p q, e.1.shape.contains p = true →
    e.1.shape.contains q = true → e.2.lead p = e.2.lead q → p = q

theorem traced_ofRoot {h : Handle} {s : Store} (hh : h.Held s) (hsep : h.geometry.Separate) :
    Traced s (h, ofRoot h) where
  root_held := hh
  separate := hsep
  buffer_eq := rfl
  shows _ := ⟨rfl, hh.sound.inside.length_strides, fun _ hp => hp, fun _ _ => rfl⟩
  injective _ _ _ _ _ hpq := hpq

end Lineage

/-! ## Deriving -/

namespace Handle

variable {h v : Handle} {s s' : Store} {op : ViewOp}

theorem buffer_of_packs (hop : op.packs) (hrun : (op.run h).run s = (.ok v, s')) :
    v.buffer = s.buffers.size := by
  cases op with
  | copy =>
    obtain ⟨-, hadopt⟩ := run_copy_eq_ok hrun
    cases hadopt
    rfl
  | slice r hr =>
    obtain ⟨d, -, hadopt⟩ := run_slice_eq_ok hrun
    cases hadopt
    rfl
  | _ => cases hop

theorem sharesBuffer_iff {a b : Handle} : a.sharesBuffer b ↔ a.buffer = b.buffer := by
  simp [sharesBuffer]

/-- What shares the buffer, and repeats nothing, is a chain of new frames. -/
theorem shares_of_buffer_eq (hh : h.Held s) (hop : op.repeats = false)
    (hrun : (op.run h).run s = (.ok v, s')) (hbuffer : v.buffer = h.buffer) :
    h.Shares (fun q => op.origin h.shape v.shape q) v := by
  cases ViewOp.derives hh hop hrun with
  | shared hv => exact hv
  | packed isView hd hφψ => exact absurd hbuffer (Nat.ne_of_gt hh.buffer_lt)

/-- What does not share the buffer has its items apart in a new one. -/
theorem separate_of_buffer_ne (hh : h.Held s) (hrun : (op.run h).run s = (.ok v, s'))
    (hbuffer : v.buffer ≠ h.buffer) : v.buffer = s.buffers.size ∧ v.geometry.Separate := by
  have hop : op.repeats = false := by
    by_contra hrepeats
    obtain ⟨t, frame, -, rfl⟩ := ViewOp.exists_of_repeats (Bool.not_eq_false _ ▸ hrepeats) hrun
    exact hbuffer rfl
  cases ViewOp.derives hh hop hrun with
  | shared hv => exact absurd (hv.shown hh.sound).buffer_eq hbuffer
  | packed isView hd hφψ => exact ⟨rfl, (hd.packed hh.sound).separate⟩

end Handle

/-! ## Lineages along a course -/

namespace Lineage

variable {e : Handle × Lineage} {v : Handle} {s s' : Store} {op : ViewOp}

/-- A derived dataset is a new root, or it has the root of the dataset it is derived from. -/
theorem derived_cases (hh : e.1.Held s) (hrun : (op.run e.1).run s = (.ok v, s')) :
    (v.buffer = s.buffers.size ∧ v.geometry.Separate ∧ notes.derived s e op v = ofRoot v) ∨
    (v.buffer = e.1.buffer ∧ notes.derived s e op v =
      { root := e.2.root
        lead := fun q => e.2.lead (op.origin e.1.shape v.shape q)
        apart := e.2.apart && !op.repeats }) := by
  by_cases hbuffer : v.buffer = e.1.buffer
  · have hpacks : op.packs = false := by
      by_contra hpacks
      have hnew := Handle.buffer_of_packs (Bool.not_eq_false _ ▸ hpacks) hrun
      exact Nat.ne_of_lt hh.buffer_lt (hbuffer.symm.trans hnew)
    right
    refine ⟨hbuffer, ?_⟩
    simp only [notes, hpacks, Handle.sharesBuffer_iff.mpr hbuffer, Bool.not_true, Bool.or_self,
      Bool.false_eq_true, if_false]
  · have hshares : v.sharesBuffer e.1 = false := by
      by_contra hshares
      exact hbuffer (Handle.sharesBuffer_iff.mp (Bool.not_eq_false _ ▸ hshares))
    obtain ⟨hnew, hsep⟩ := Handle.separate_of_buffer_ne hh hrun hbuffer
    left
    refine ⟨hnew, hsep, ?_⟩
    simp only [notes, hshares, Bool.not_false, Bool.or_true, if_true]

theorem Traced.derive (he : Traced s e) (hh : e.1.Held s)
    (hrun : (op.run e.1).run s = (.ok v, s')) : Traced s' (v, notes.derived s e op v) := by
  have hyields := hh.yields op
  rw [hrun] at hyields
  rcases derived_cases hh hrun with ⟨-, hsep, hnote⟩ | ⟨hbuffer, hnote⟩
  · rw [hnote]
    exact traced_ofRoot (hyields.held hh) hsep
  · rw [hnote]
    -- What is noted of items that lie apart says that nothing was repeated, in this step either.
    have hshown (hapart : (e.2.apart && !op.repeats)) : e.2.apart ∧
        v.Shown e.1 (fun q => op.origin e.1.shape v.shape q) (s.buffer e.1.buffer).size := by
      rw [Bool.and_eq_true, Bool.not_eq_true'] at hapart
      exact ⟨hapart.1, (Handle.shares_of_buffer_eq hh hapart.2 hrun hbuffer).shown hh.sound⟩
    exact {
      root_held := he.root_held.later hyields.later
      separate := he.separate
      buffer_eq := hbuffer.trans he.buffer_eq
      shows := fun hapart =>
        have ⟨hapart, hv⟩ := hshown hapart
        hv.shows.trans (he.shows hapart)
      injective := fun hapart p q hp hq hpq =>
        have ⟨hapart, hv⟩ := hshown hapart
        hv.injective p q hp hq (he.injective hapart _ _ (hv.shows.contains p hp)
          (hv.shows.contains q hq) hpq) }

theorem Traced.later (he : Traced s e) (hs : s'.Later s) : Traced s' e :=
  ⟨he.root_held.later hs, he.separate, he.buffer_eq, he.shows, he.injective⟩

theorem keeps_traced : notes.Keeps Traced where
  later _ hs he := he.later hs
  make hmade := traced_ofRoot (Handle.held_of_over_push ⟨rfl, hmade.sound⟩) hmade.separate
  derive hh he hrun := he.derive hh hrun
  write _ he hwrote := by
    have hlater := he.later hwrote.later
    cases hwrote with
    | written stop hd =>
      exact ⟨hlater.root_held, hlater.separate, hlater.buffer_eq, hlater.shows, hlater.injective⟩
  summarize _ he hst := by
    cases hst with
    | kept => exact he
    | computed => exact ⟨he.root_held, he.separate, he.buffer_eq, he.shows, he.injective⟩

end Lineage

/-- Every buffer has one root. -/
def Lineage.OneRoot (es : List (Handle × Lineage)) : Prop :=
  ∀ u ∈ es, ∀ v ∈ es, u.2.root.buffer = v.2.root.buffer → u.2.root = v.2.root

namespace Lineage.OneRoot

variable {es : List (Handle × Lineage)} {x : Handle × Lineage}

theorem cons (h : OneRoot es)
    (hx : ∀ u ∈ es, x.2.root.buffer = u.2.root.buffer → x.2.root = u.2.root) :
    OneRoot (x :: es) := by
  intro u hu v hv huv
  rcases mem_cons.mp hu with rfl | hu' <;> rcases mem_cons.mp hv with rfl | hv'
  · rfl
  · exact hx v hv' huv
  · exact (hx u hu' huv.symm).symm
  · exact h u hu' v hv' huv

theorem cons_known (h : OneRoot es) {e : Handle × Lineage} (he : e ∈ es)
    (hx : x.2.root = e.2.root) : OneRoot (x :: es) :=
  h.cons fun u hu huv => hx.trans (h e he u hu (hx ▸ huv))

theorem cons_fresh (h : OneRoot es) (hx : ∀ u ∈ es, u.2.root.buffer < x.2.root.buffer) :
    OneRoot (x :: es) :=
  h.cons fun u hu huv => absurd huv (Nat.ne_of_gt (hx u hu))

end Lineage.OneRoot

namespace Course

variable {s : Store} {es : List (Handle × Lineage)}

theorem traced (hcourse : Course Lineage.notes s es) : ∀ e ∈ es, Lineage.Traced s e := fun e he =>
  (hcourse.held_and_keeps Lineage.keeps_traced e he).2

theorem oneRoot (hcourse : Course Lineage.notes s es) : Lineage.OneRoot es := by
  induction hcourse with
  | start => simp [Lineage.OneRoot]
  | make hcourse hmade ih =>
    exact ih.cons_fresh fun u hu => (hcourse.traced u hu).root_held.buffer_lt
  | @derive s s' es e v op hcourse he hrun ih =>
    rcases Lineage.derived_cases (hcourse.held e he) hrun with ⟨hnew, -, hnote⟩ | ⟨-, hnote⟩
    · refine ih.cons_fresh fun u hu => ?_
      rw [hnote]
      exact hnew ▸ (hcourse.traced u hu).root_held.buffer_lt
    · exact ih.cons_known he (by rw [hnote])
  | write op _ he _ ih => exact ih.cons_known he rfl
  | summarize _ he _ ih => exact ih.cons_known he rfl
  | refuseDerive _ _ _ _ ih => exact ih
  | refuseWrite _ _ _ _ ih => exact ih

end Course

/-! ## One item -/

namespace Handle

variable {h : Handle} {s : Store} {p : Position} {item : List Scalar}

theorem run_setItem (hh : h.Held s) (hp : h.shape.contains p)
    (hitem : item.length = h.itemSize) :
    (h.setItem p item).run s = (.ok ⟨{ h with metadata := h.metadata.onDirty }, none⟩,
      s.setBuffer h.buffer
        ((s.buffer h.buffer).modify (·.putFrom (h.geometry.indexOf p) item))) := by
  have hwrite : (s.read h).writeItem p item =
      .ok ⟨(s.read h).modifyElements (·.putFrom (h.geometry.indexOf p) item), none⟩ :=
    Sound.writeItem_eq_ok hh.sound hp hitem
  rw [setItem, run_write, hwrite]
  rfl

end Handle

namespace Lineage.Traced

variable {e : Handle × Lineage} {s : Store}

theorem indices_apart (he : Traced s e) (hh : e.1.Held s) (hapart : e.2.apart)
    {p q : Position} (hp : e.1.shape.contains p) (hq : e.1.shape.contains q)
    (hpq : p ≠ q) : e.1.geometry.indexOf p + e.1.itemSize ≤ e.1.geometry.indexOf q ∨
      e.1.geometry.indexOf q + e.1.itemSize ≤ e.1.geometry.indexOf p := by
  have hsep := he.separate.of_shows (he.shows hapart) (he.injective hapart) p q hp hq hpq
  rw [← hh.sound.inside.cast_indexOf hp, ← hh.sound.inside.cast_indexOf hq] at hsep
  have hitem : e.1.geometry.itemSize = e.1.itemSize := rfl
  omega

/-- What the root has after an item was put where a position of the dataset denotes. -/
theorem getItem_root (he : Traced s e) (hh : e.1.Held s) (hapart : e.2.apart)
    {p q : Position} {item : List Scalar} (hp : e.1.shape.contains p)
    (hitem : item.length = e.1.itemSize) (hq : e.2.root.shape.contains q) :
    ((s.setBuffer e.1.buffer ((s.buffer e.1.buffer).modify
        (·.putFrom (e.1.geometry.indexOf p) item))).read e.2.root).getItem q =
      .ok (if e.2.lead p = q then item else (s.read e.2.root).item q) := by
  have hshows := he.shows hapart
  let b := (s.buffer e.2.root.buffer).modify (·.putFrom (e.1.geometry.indexOf p) item)
  have hread : (s.setBuffer e.1.buffer ((s.buffer e.1.buffer).modify
      (·.putFrom (e.1.geometry.indexOf p) item))).read e.2.root =
        { s.read e.2.root with buffer := b } := by
    simp only [Store.read, Store.buffer_setBuffer, he.buffer_eq, he.root_held.buffer_lt, and_self,
      if_true, b]
  have hindex : e.1.geometry.indexOf p = e.2.root.geometry.indexOf (e.2.lead p) :=
    hshows.indexOf_eq he.root_held.sound.inside (he.buffer_eq ▸ hh.sound.inside) hp
  have hsound : Sound { s.read e.2.root with buffer := b } := by
    have hsize : b.size = (s.buffer e.2.root.buffer).size := Elements.size_putFrom ..
    change e.2.root.toFrame.Sound b.size
    exact hsize ▸ he.root_held.sound
  rw [hread, hsound.getItem_eq_ok hq]
  refine congrArg _ ?_
  change Frame.item _ (Elements.putFrom _ (e.1.geometry.indexOf p) item) q = _
  rw [hindex]
  exact Frame.item_putFrom he.root_held.sound he.separate (hshows.contains p hp) hq
    (hitem.trans hshows.itemSize_eq)

end Lineage.Traced

/-- **Positions of a dataset that was derived without repeating items lie apart in the buffer. An
item that is written through the dataset arrives in its root at the one position that is denoted,
and neither another item of the root nor a dataset of another root changes.** -/
theorem Course.write_through {s : Store} {es : List (Handle × Lineage)}
    (hcourse : Course Lineage.notes s es) {v : Handle × Lineage} (hv : v ∈ es)
    (hapart : v.2.apart = true) :
    (∀ p q, v.1.shape.contains p = true → v.1.shape.contains q = true → p ≠ q →
      v.1.geometry.indexOf p + v.1.itemSize ≤ v.1.geometry.indexOf q ∨
        v.1.geometry.indexOf q + v.1.itemSize ≤ v.1.geometry.indexOf p) ∧
    ∀ p item, v.1.shape.contains p = true → item.length = v.1.itemSize →
      ∃ w s', (v.1.setItem p item).run s = (.ok ⟨w, none⟩, s') ∧
        (s'.read v.2.root).getItem (v.2.lead p) = .ok item ∧
        (∀ q, v.2.root.shape.contains q = true → q ≠ v.2.lead p →
          (s'.read v.2.root).getItem q = (s.read v.2.root).getItem q) ∧
        ∀ u ∈ es, u.2.root ≠ v.2.root → s'.read u.1 = s.read u.1 := by
  have hheld := hcourse.held v hv
  have htraced := hcourse.traced v hv
  have hshows := htraced.shows hapart
  refine ⟨fun p q hp hq hpq => htraced.indices_apart hheld hapart hp hq hpq,
    fun p item hp hitem => ⟨_, _, Handle.run_setItem hheld hp hitem, ?_, ?_, ?_⟩⟩
  · have hlead := hshows.contains p hp
    rw [htraced.getItem_root hheld hapart hp hitem hlead, if_pos rfl]
  · intro q hq hne
    rw [htraced.getItem_root hheld hapart hp hitem hq, if_neg hne.symm]
    exact (Sound.getItem_eq_ok (d := s.read v.2.root) htraced.root_held.sound hq).symm
  · intro u hu hroot
    have hbuffer : u.1.buffer ≠ v.1.buffer := by
      rw [(hcourse.traced u hu).buffer_eq, htraced.buffer_eq]
      exact fun h => hroot (hcourse.oneRoot u hu v hv h)
    simp only [Store.read, Store.buffer_setBuffer, hbuffer, false_and, if_false]

theorem Course.exists_turned_grid : ∃ (s : Store) (es : List (Handle × Lineage))
    (copied v : Handle × Lineage), Course Lineage.notes s es ∧ copied ∈ es ∧ v ∈ es ∧
      v.2.apart ∧ v.1.shape = [3, 2] ∧ v.1.strides = [-1, 3] ∧ v.1.itemSize = 1 ∧
      v.2.lead [0, 1] = [1, 2] ∧ v.2.root.shape = [2, 3] ∧
      copied.2.root.buffer ≠ v.2.root.buffer := by
  have hmade : Made (ofList (.int true .w32) [2, 3] 1
      ([0, 1, 2, 3, 4, 5].map Scalar.int)) :=
    .ofElements (n := 1) (s := [2, 3])
      (l := [0, 1, 2, 3, 4, 5].map Scalar.int) rfl
  have hmake := (Course.start (n := Lineage.notes)).make hmade
  have hcopy := hmake.derive .copy mem_cons_self rfl
  have hflip := hcopy.derive (.flip 1) (mem_cons_of_mem _ mem_cons_self) rfl
  have hswap := hflip.derive (.swapAxes 0 1) mem_cons_self rfl
  exact ⟨_, _, _, _, hswap, mem_cons_of_mem _ (mem_cons_of_mem _ mem_cons_self),
    mem_cons_self, rfl, rfl, rfl, rfl, rfl, rfl, by decide⟩

theorem Course.write_through_turned_grid : ∃ (s s' : Store) (copied v : Handle × Lineage)
    (w : Handle), v.1.shape = [3, 2] ∧ v.1.strides = [-1, 3] ∧
      (v.1.setItem [0, 1] [.int 9]).run s = (.ok ⟨w, none⟩, s') ∧
      (s'.read v.2.root).getItem [1, 2] = .ok [.int 9] ∧
      (s'.read v.2.root).getItem [1, 0] = (s.read v.2.root).getItem [1, 0] ∧
      s'.read copied.1 = s.read copied.1 := by
  obtain ⟨s, es, copied, v, hcourse, hcopied, hv, hapart, hshape, hstrides, hitem, hlead, hroot,
    hne⟩ := Course.exists_turned_grid
  obtain ⟨w, s', hrun, hwritten, hothers, hframe⟩ := (hcourse.write_through hv hapart).2 [0, 1]
    [.int 9] (by rw [hshape]; rfl) hitem.symm
  rw [hlead] at hwritten hothers
  exact ⟨s, s', copied, v, w, hshape, hstrides, hrun, hwritten,
    hothers [1, 0] (by rw [hroot]; rfl) (by decide),
    hframe copied hcopied fun h => hne (congrArg Dataset.buffer h)⟩

end Hyperslab
