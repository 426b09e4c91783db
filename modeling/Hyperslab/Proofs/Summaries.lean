import Hyperslab.Proofs.Courses
import Hyperslab.Proofs.NumberOrder
import Hyperslab.Proofs.Origins
import Hyperslab.Proofs.SlicesInWords

/-!
# Summaries that are held

A dataset holds its last summary and the number of writes that its buffer had counted when the
summary was made. As long as the buffer has not counted more, the summary is taken for current. That
is right where the number was counted by the buffer of the dataset itself. A packed copy takes the
summary along to a buffer that counts anew, and there the same number may come up again.
-/
namespace Hyperslab

open Dataset

/-! ## Summaries of reordered elements -/

namespace Statistics

open Number

/-- Of two proper doubles `better` chooses the one that `f` puts higher, and `f` tells them all
apart. -/
structure Chooses (better : Float → Float → Float) (f : Float → Int) : Prop where
  better_eq : ∀ {x y}, Proper x → Proper y → better x y = if f x < f y then y else x
  inj : ∀ {x y}, Proper x → Proper y → f x = f y → x = y

theorem chooses_maximum : Chooses maximum rank where
  better_eq hx hy := by
    simp only [maximum, hx.isNaN_eq_false, hy.isNaN_eq_false, Bool.false_eq_true, if_false,
      hx.lt_iff hy]
  inj hx hy h := hx.eq_of_rank_eq hy h

theorem chooses_minimum : Chooses minimum fun x => -rank x where
  better_eq hx hy := by
    simp only [minimum, hx.isNaN_eq_false, hy.isNaN_eq_false, Bool.false_eq_true, if_false,
      hy.lt_iff hx, neg_lt_neg_iff]
  inj hx hy h := hx.eq_of_rank_eq hy (neg_inj.mp h)

theorem pick_of_proper {better : Float → Float → Float} {x : Float} (hx : Proper x)
    (best : Option Float) : pick better best x = some (best.elim x fun b => better b x) := by
  simp only [pick, hx.isNaN_eq_false, Bool.false_eq_true, if_false]

namespace Chooses

variable {better : Float → Float → Float} {f : Float → Int}

/-- One pick keeps one of two proper doubles, and the other is not higher. -/
theorem pick_eq (h : Chooses better f) {x z : Float} (hx : Proper x) (hz : Proper z) :
    ∃ b, (b = x ∨ b = z) ∧ pick better (some x) z = some b ∧ f x ≤ f b ∧ f z ≤ f b := by
  rw [pick_of_proper hz, Option.elim_some, h.better_eq hx hz]
  by_cases hxz : f x < f z
  · exact ⟨z, .inr rfl, by rw [if_pos hxz], hxz.le, le_rfl⟩
  · exact ⟨x, .inl rfl, by rw [if_neg hxz], le_rfl, not_lt.mp hxz⟩

/-- What is picked from proper doubles is one of them, and none is higher. -/
theorem foldl_pick (h : Chooses better f) {x : Float} {l : List Float}
    (hl : ∀ y ∈ x :: l, Proper y) :
    ∃ m ∈ x :: l, l.foldl (pick better) (some x) = some m ∧ ∀ y ∈ x :: l, f y ≤ f m := by
  induction l generalizing x with
  | nil => exact ⟨x, by simp, rfl, by simp⟩
  | cons z l ih =>
    obtain ⟨b, hb, hpick, hxb, hzb⟩ := h.pick_eq (hl x (by simp)) (hl z (by simp))
    have hmem : ∀ y ∈ b :: l, y ∈ x :: z :: l := by
      rcases hb with rfl | rfl <;> grind
    obtain ⟨m, hm, hfold, hle⟩ := ih fun y hy => hl y (hmem y hy)
    refine ⟨m, hmem m hm, by rw [List.foldl_cons, hpick, hfold], ?_⟩
    intro y hy
    have hbm : f b ≤ f m := hle b List.mem_cons_self
    rcases List.mem_cons.mp hy with rfl | hy
    · exact hxb.trans hbm
    rcases List.mem_cons.mp hy with rfl | hy
    · exact hzb.trans hbm
    · exact hle y (List.mem_cons_of_mem b hy)

theorem foldl_pick_perm (h : Chooses better f) {l l' : List Float} (hl : ∀ x ∈ l, Proper x)
    (hperm : l.Perm l') : l.foldl (pick better) none = l'.foldl (pick better) none := by
  cases l with
  | nil => rw [hperm.nil_eq]
  | cons x t =>
    cases l' with
    | nil => cases hperm.eq_nil
    | cons y t' =>
      have hl' : ∀ z ∈ y :: t', Proper z := fun z hz => hl z (hperm.mem_iff.mpr hz)
      obtain ⟨m, hm, hfold, hle⟩ := h.foldl_pick hl
      obtain ⟨m', hm', hfold', hle'⟩ := h.foldl_pick hl'
      -- Each of the two is at least as high as the other.
      have hmm' : m = m' := by
        refine h.inj (hl m hm) (hl' m' hm') (le_antisymm ?_ ?_)
        · exact hle' m (hperm.mem_iff.mp hm)
        · exact hle m' (hperm.mem_iff.mpr hm')
      rw [List.foldl_cons, pick_of_proper (hl x (by simp)), List.foldl_cons,
        pick_of_proper (hl' y (by simp))]
      simp only [Option.elim_none, hfold, hfold', hmm']

end Chooses

theorem max_compute (l : List Scalar) (generation : Nat) :
    (compute l generation).max = (l.map Scalar.toFloat).foldl (pick maximum) none := by
  rw [List.foldl_map]
  exact (List.foldl_hom Statistics.max fun _ _ => rfl).symm

theorem min_compute (l : List Scalar) (generation : Nat) :
    (compute l generation).min = (l.map Scalar.toFloat).foldl (pick minimum) none := by
  rw [List.foldl_map]
  exact (List.foldl_hom Statistics.min fun _ _ => rfl).symm

@[simp] theorem generation_compute (l : List Scalar) (generation : Nat) :
    (compute l generation).generation = generation := by
  have hconst : l.foldl (fun n _ => n) generation = generation := by
    induction l with
    | nil => rfl
    | cons v l ih => exact ih
  exact (List.foldl_hom Statistics.generation fun _ _ => rfl).symm.trans hconst

theorem count_compute (l : List Scalar) (generation : Nat) :
    (compute l generation).count = l.length := by
  have hcount (st : Statistics) :
      (l.foldl (fun st v => st.absorb v.toFloat) st).count = st.count + l.length := by
    induction l generalizing st with
    | nil => rfl
    | cons v l ih =>
      rw [List.foldl_cons, ih, List.length_cons]
      simp only [absorb]
      omega
  exact (hcount _).trans (Nat.zero_add _)

theorem compute_perm {l l' : List Scalar} (hperm : l.Perm l') (hl : ∀ v ∈ l, v.isFloat = false)
    (generation : Nat) : (compute l generation).max = (compute l' generation).max ∧
      (compute l generation).min = (compute l' generation).min ∧
      (compute l generation).count = (compute l' generation).count := by
  have hproper : ∀ x ∈ l.map Scalar.toFloat, Proper x := by
    simp only [List.mem_map]
    rintro x ⟨v, hv, rfl⟩
    exact Scalar.proper_toFloat (hl v hv)
  have hfloats := hperm.map Scalar.toFloat
  refine ⟨?_, ?_, ?_⟩
  · rw [max_compute, max_compute, chooses_maximum.foldl_pick_perm hproper hfloats]
  · rw [min_compute, min_compute, chooses_minimum.foldl_pick_perm hproper hfloats]
  · rw [count_compute, count_compute, hperm.length_eq]

end Statistics

/-! ## What is derived -/

/-- A map that keeps positions inside and apart reorders the positions of a shape of equal size. -/
theorem Shape.positions_map_perm {s t : Shape} {φ : Position → Position}
    (hcontains : ∀ q, t.contains q → s.contains (φ q))
    (hinj : ∀ p q, t.contains p → t.contains q → φ p = φ q → p = q)
    (hsize : t.size = s.size) : (t.positions.map φ).Perm s.positions := by
  have hnodup : (t.positions.map φ).Nodup := by
    refine t.nodup_positions.map_on fun p hp q hq => ?_
    exact hinj p q (mem_positions.mp hp) (mem_positions.mp hq)
  have hsubset : t.positions.map φ ⊆ s.positions := by
    intro p hp
    obtain ⟨q, hq, rfl⟩ := List.mem_map.mp hp
    exact mem_positions.mpr (hcontains q (mem_positions.mp hq))
  refine (hnodup.subperm hsubset).perm_of_length_le ?_
  rw [List.length_map, length_positions, length_positions, hsize]

namespace Metadata

variable {m m' : Metadata} {st : Statistics}

theorem mem_statistics_of_copy (hst : st ∈ m.copy.statistics) : st ∈ m.statistics :=
  List.mem_of_mem_filter hst

theorem isDirty_of_onSlice {r : Region} {asView : Bool} (hm : m.onSlice r asView = .ok m')
    (hst : st ∈ m'.statistics) : st.isDirty := by
  simp only [onSlice, bind_eq_ok, pure_eq_ok] at hm
  obtain ⟨_, -, _, -, _, -, rfl⟩ := hm
  obtain ⟨st', -, rfl⟩ := List.mem_map.mp hst
  rfl

theorem mem_statistics_of_onReshape {map : Regrouping} (hm : m.onReshape map = .ok m')
    (hst : st ∈ m'.statistics) : st ∈ m.statistics := by
  simp only [onReshape, bind_eq_ok, pure_eq_ok] at hm
  obtain ⟨_, -, _, -, _, -, rfl⟩ := hm
  exact mem_statistics_of_copy hst

theorem mem_statistics_of_onTranspose {perm : List Nat} (hm : m.onTranspose perm = .ok m')
    (hst : st ∈ m'.statistics) : st ∈ m.statistics := by
  simp only [onTranspose, bind_eq_ok, pure_eq_ok] at hm
  obtain ⟨_, -, _, -, _, -, rfl⟩ := hm
  exact mem_statistics_of_copy hst

end Metadata

namespace Dataset

variable {φ : Position → Position} {st : Statistics}

/-- A clean summary comes from the dataset that new frames were put over, and they show as many
items. -/
theorem Shares.mem_statistics {β : Type} {h v : Dataset β} {length : Nat} (hv : h.Shares φ v)
    (hh : h.toFrame.Sound length) (hst : st ∈ v.metadata.statistics)
    (hclean : st.isDirty = false) : st ∈ h.metadata.statistics ∧ v.size = h.size := by
  induction hv with
  | mark h isView => exact ⟨hst, rfl⟩
  | view h => exact ⟨Metadata.mem_statistics_of_copy hst, rfl⟩
  | slice _ hv =>
    have hdirty := Metadata.isDirty_of_onSlice (sliceView_eq_ok hv).2.2 hst
    simp [hdirty] at hclean
  | permute hperm hm =>
    exact ⟨Metadata.mem_statistics_of_onTranspose hm hst, Shape.size_apply hperm⟩
  | @reshape h v t hv =>
    obtain ⟨map, hmap, -, -, hm⟩ := reshapeView_eq_some hv
    refine ⟨Metadata.mem_statistics_of_onReshape hm hst, ?_⟩
    rw [Frame.size, (shown_reshape hh hv).1]
    exact (Regrouping.of_eq_ok hmap).1.symm
  | trans hu _ ihu ihv =>
    obtain ⟨hst, hsize⟩ := ihv (hu.shown hh).sound hst
    obtain ⟨hst, hsize'⟩ := ihu hh hst
    exact ⟨hst, hsize.trans hsize'⟩
  | congr _ _ ih => exact ih hh hst

/-- A clean summary comes from the dataset whose items were packed, and all of them were. -/
theorem Packs.mem_statistics {d e : Block} (he : d.Packs φ e) (hst : st ∈ e.metadata.statistics)
    (hclean : st.isDirty = false) : st ∈ d.metadata.statistics ∧ e.size = d.size := by
  cases he with
  | copy _ => exact ⟨Metadata.mem_statistics_of_copy hst, rfl⟩
  | slice _ he =>
    have hdirty := Metadata.isDirty_of_onSlice (slice_eq_ok he).2.2 hst
    simp [hdirty] at hclean
  | reshape hmap hm =>
    exact ⟨Metadata.mem_statistics_of_onReshape hm hst, (Regrouping.of_eq_ok hmap).1.symm⟩

end Dataset

namespace Handle

variable {h v : Handle} {s s' : Store} {φ : Position → Position}

theorem Derives.mem_statistics {st : Statistics} (hv : h.Derives s φ s' v) (hh : h.Held s)
    (hst : st ∈ v.metadata.statistics) (hclean : st.isDirty = false) :
    st ∈ h.metadata.statistics ∧ v.size = h.size := by
  cases hv with
  | shared hv => exact hv.mem_statistics hh.sound hst hclean
  | packed isView hd _ => exact hd.mem_statistics hst hclean

/-- What is derived has the elements in another order, if it has as many items. -/
theorem Derives.toList_perm (hv : h.Derives s φ s' v) (hh : h.Held s) (hsize : v.size = h.size) :
    (s'.read v).toList.Perm (s.read h).toList := by
  have hshows := hv.shows hh
  have hpositions : (v.shape.positions.map φ).Perm h.shape.positions :=
    Shape.positions_map_perm hshows.contains (fun _ _ => hv.injective hh) hsize
  have hitems : v.shape.positions.map (s'.read v).item =
      (v.shape.positions.map φ).map (s.read h).item := by
    rw [List.map_map]
    exact List.map_congr_left fun q hq => hshows.item_eq q (Shape.mem_positions.mp hq)
  have hlist (s : Store) (h : Handle) : (s.read h).toList =
      (h.shape.positions.map (s.read h).item).flatten := Frame.elements_eq ..
  rw [hlist, hlist, hitems]
  exact (hpositions.map _).flatten

/-! ## Fresh summaries -/

/-- No summary that is held has counted more writes than the buffer. One that is clean and has
counted as many is a summary of the elements, in some order. -/
def Fresh (s : Store) (h : Handle) : Prop :=
  ∀ st ∈ h.metadata.statistics, st.isDirty = false → st.generation ≤ s.generation h ∧
    (st.generation = s.generation h →
      ∃ l, l.Perm (s.read h).toList ∧ st = .compute l (s.generation h))

/-- Where a buffer has counted more writes, its old summaries are not current any more. -/
theorem Fresh.later (hfresh : h.Fresh s) (hh : h.Held s) (hs : s'.Later s) : h.Fresh s' := by
  intro st hst hclean
  obtain ⟨hle, hsummary⟩ := hfresh st hst hclean
  rcases hs.counted h.buffer hh.buffer_lt with hsame | hlt
  · simp only [Store.generation, Store.read, hsame]
    exact ⟨hle, hsummary⟩
  · have hlt : st.generation < s'.generation h := hle.trans_lt hlt
    exact ⟨hlt.le, fun heq => absurd heq hlt.ne⟩

theorem Fresh.of_mem (hfresh : h.Fresh s) {m : Metadata}
    (hmem : ∀ st ∈ m.statistics, st.isDirty = false → st ∈ h.metadata.statistics) :
    Fresh s { h with metadata := m } :=
  fun st hst hclean => hfresh st (hmem st hst hclean) hclean

/-- No summary that is held is clean. -/
def allDirty (h : Handle) : Bool := h.metadata.statistics.all (·.isDirty)

theorem fresh_of_allDirty (hdirty : h.allDirty) : h.Fresh s := by
  intro st hst hclean
  rw [allDirty, List.all_eq_true] at hdirty
  simp [hdirty st hst] at hclean

/-- A derived dataset takes fresh summaries along to the same buffer, and to a new buffer if the old
one has not counted any write. -/
theorem Derives.fresh (hv : h.Derives s φ s' v) (hh : h.Held s) (hfresh : h.Fresh s)
    (hcount : v.buffer = h.buffer ∨ s.generation h = 0) : v.Fresh s' := by
  intro st hst hclean
  obtain ⟨hst, hsize⟩ := hv.mem_statistics hh hst hclean
  have hperm := hv.toList_perm hh hsize
  have hgeneration : s'.generation v = s.generation h := by
    cases hv with
    | shared hv => rw [Store.generation, (hv.shown hh.sound).buffer_eq, Store.generation]
    | @packed _ _ d isView hd _ =>
      -- The buffer is new, so the old one has counted nothing, and neither has the new one.
      have hzero : s.generation h = 0 := hcount.resolve_left (Nat.ne_of_gt hh.buffer_lt)
      rw [hzero]
      exact (congrArg Buffer.generation (s.buffer_adopt_self d)).trans
        (hd.packed hh.sound).generation_eq
  rw [hgeneration]
  obtain ⟨hle, hsummary⟩ := hfresh st hst hclean
  refine ⟨hle, fun heq => ?_⟩
  obtain ⟨l, hl, hst⟩ := hsummary heq
  exact ⟨l, hl.trans hperm.symm, hst⟩

/-- What is returned summarizes the elements in some order, if what is held is fresh wherever it is
taken for current. -/
theorem Summarizes.eq_compute {st : Statistics} (hst : h.Summarizes s st v)
    (hfresh : h.hasCurrent s → h.Fresh s) :
    ∃ l, l.Perm (s.read h).toList ∧ st = .compute l (s.generation h) := by
  cases hst with
  | kept hhead hcurrent =>
    have hheld : h.hasCurrent s := by simp [hasCurrent, hhead, hcurrent]
    simp only [Statistics.isCurrent, Bool.and_eq_true, Bool.not_eq_true', beq_iff_eq] at hcurrent
    exact (hfresh hheld st (List.mem_of_head? hhead) hcurrent.1).2 hcurrent.2
  | computed _ hst => exact ⟨_, .refl _, hst⟩

end Handle

/-! ## Which counts are a buffer's own -/

/-- Notes whether the clean summaries of a dataset have the count of its own buffer. A packed copy
takes them along to a new buffer, and if the old one has counted writes, the count that they have is
not that of the new one. The count is the buffer's own again as soon as there is no clean summary
left, or a new one is made. -/
def Statistics.ownCount : Notes Bool where
  made _ := true
  derived s e _ v := e.2 && (v.buffer == e.1.buffer || s.generation e.1 == 0) || v.allDirty
  written e v := e.2 || v.allDirty
  summarized s e _ := e.2 || !e.1.hasCurrent s

/-- **Summaries with the count of their own buffer are fresh**, whatever happens to the buffer. -/
theorem Statistics.keeps_fresh : Statistics.ownCount.Keeps fun s e => e.2 → e.1.Fresh s where
  later hh hs hfresh hown := (hfresh hown).later hh hs
  make hmade _ := by
    obtain ⟨k, t, n, e, rfl, -⟩ := hmade.eq_packed
    exact Handle.fresh_of_allDirty rfl
  derive {s s' e op v} hh hfresh hrun hown := by
    simp only [ownCount, Bool.or_eq_true, Bool.and_eq_true, beq_iff_eq] at hown
    rcases hown with ⟨hown, hcount⟩ | hdirty
    · cases hop : op.repeats with
      | false => exact (ViewOp.derives hh hop hrun).fresh hh (hfresh hown) hcount
      | true =>
        obtain ⟨t, frame, -, rfl⟩ := ViewOp.exists_of_repeats hop hrun
        exact Handle.fresh_of_allDirty rfl
    · exact Handle.fresh_of_allDirty hdirty
  write {s s' e w} hh hfresh hwrote hown := by
    simp only [ownCount, Bool.or_eq_true] at hown
    rcases hown with hown | hdirty
    · have hlater := (hfresh hown).later hh hwrote.later
      cases hwrote with
      | written stop hd => exact hlater.of_mem hd.clean
    · exact Handle.fresh_of_allDirty hdirty
  summarize {s e st v} hh hfresh hst hown := by
    simp only [ownCount, Bool.or_eq_true] at hown
    cases hst with
    | kept hhead hcurrent =>
      -- The note is the old one, for the summary was taken for current.
      refine hfresh (hown.resolve_right fun hnone => ?_)
      simp [Handle.hasCurrent, hhead, hcurrent] at hnone
    | computed _ hst =>
      intro st' hst' _
      obtain rfl := List.mem_singleton.mp hst'
      subst hst
      simp only [Statistics.generation_compute]
      exact ⟨le_rfl, fun _ => ⟨_, .refl _, rfl⟩⟩

/-! ## The law -/

/-- **A summary with the count of its own buffer is never stale.** Make, derive, write and summarize
datasets in any order, and then summarize one of them. This is stopped only if the dataset has to be
read and the walk leaves the words. Unless the dataset holds a summary that is taken for current by
the count of another buffer, what is returned summarizes the elements that it has at that moment, in
some order; if they are integers, with the extremes and the number of a summary made now. -/
theorem Course.summary_never_stale {s : Store} {es : List (Handle × Bool)}
    (hcourse : Course Statistics.ownCount s es) {e : Handle × Bool} (he : e ∈ es)
    (hown : e.2 = true ∨ e.1.hasCurrent s = false) :
    ((e.1.hasCurrent s = true ∨ e.1.checkWalk = .ok ()) →
      ∃ st v, e.1.statisticsInWords.run s = (.ok (st, v), s) ∧
        (∃ l, l.Perm (s.read e.1).toList ∧ st = .compute l (s.generation e.1)) ∧
        ((∀ x ∈ (s.read e.1).toList, x.isFloat = false) →
          let now := Statistics.compute (s.read e.1).toList (s.generation e.1)
          st.max = now.max ∧ st.min = now.min ∧ st.count = now.count)) ∧
    (¬ (e.1.hasCurrent s = true ∨ e.1.checkWalk = .ok ()) →
      e.1.statisticsInWords.run s = (.error (.fault .overflow), s)) := by
  obtain ⟨hheld, hfresh⟩ := hcourse.held_and_keeps Statistics.keeps_fresh e he
  refine ⟨fun hgoes => ?_, fun hstops => ?_⟩
  case refine_2 =>
    obtain ⟨hcurrent, hwalk⟩ := not_or.mp hstops
    rw [hheld.run_statisticsInWords (Bool.eq_false_iff.mpr hcurrent), Frame.checkWalk_eq,
      Word.ensure_of_not fun h => hwalk ((Frame.checkWalk_eq _).trans (Word.ensure_of h))]
    rfl
  obtain ⟨st, v, hrun, hst⟩ := hheld.exists_summary hgoes
  have hcurrent (hcurrent : e.1.hasCurrent s = true) : e.1.Fresh s :=
    hfresh (hown.resolve_right fun hnone => by simp [hcurrent] at hnone)
  obtain ⟨l, hperm, rfl⟩ := hst.eq_compute hcurrent
  refine ⟨_, v, hrun, ⟨l, hperm, rfl⟩, fun hints => ?_⟩
  exact Statistics.compute_perm hperm (fun x hx => hints x (hperm.mem_iff.mp hx)) _

/-- A summary goes along to a transposed view and is current there. -/
theorem Course.exists_transposed_summary : ∃ (s : Store) (es : List (Handle × Bool))
    (v : Handle × Bool), Course Statistics.ownCount s es ∧ v ∈ es ∧ v.2 ∧
      v.1.hasCurrent s ∧ (s.read v.1).toList = [1, 2, 5, -3].map Scalar.int := by
  have hmade : Dataset.Made (ofList (.int true .w32) [2, 2] 1 ([1, 5, 2, -3].map Scalar.int)) :=
    .ofElements (n := 1) (s := [2, 2]) (l := [1, 5, 2, -3].map Scalar.int) rfl
  have hmake := (Course.start (n := Statistics.ownCount)).make hmade
  have hsummarize := hmake.summarize List.mem_cons_self rfl
  have hswap := hsummarize.derive (.swapAxes 0 1) List.mem_cons_self rfl
  exact ⟨_, _, _, hswap, List.mem_cons_self, rfl, rfl, rfl⟩

theorem Course.summary_never_stale_transposed : ∃ (s : Store) (v w : Handle) (st : Statistics),
    v.hasCurrent s = true ∧ v.statisticsInWords.run s = (.ok (st, w), s) ∧ st.max = some 5.0 ∧
      st.min = some (-3.0) ∧ st.count = 4 := by
  obtain ⟨s, es, v, hcourse, hv, hown, hcurrent, hlist⟩ := Course.exists_transposed_summary
  obtain ⟨st, w, hrun, -, hextremes⟩ :=
    (hcourse.summary_never_stale hv (.inl hown)).1 (.inl hcurrent)
  rw [hlist] at hextremes
  obtain ⟨hmax, hmin, hcount⟩ := hextremes (by decide)
  refine ⟨s, v.1, w, st, hcurrent, hrun, ?_, ?_, ?_⟩
  · rw [hmax, Statistics.max_compute]
    decide
  · rw [hmin, Statistics.min_compute]
    decide
  · rw [hcount, Statistics.count_compute]
    rfl

/-- A copy of a dataset that holds an old summary takes it for current: the buffer of the copy has
counted no write, as the old buffer had when the summary was made. -/
theorem Course.copied_summary_is_stale : ∃ (s : Store) (es : List (Handle × Bool))
    (e : Handle × Bool) (st : Statistics) (v : Handle), Course Statistics.ownCount s es ∧ e ∈ es ∧
      (s.read e.1).toList = [9, 5, 2].map Scalar.int ∧
      e.1.statisticsInWords.run s = (.ok (st, v), s) ∧ st.max = some 5.0 ∧
      (Statistics.compute (s.read e.1).toList (s.generation e.1)).max = some 9.0 := by
  have hmade : Dataset.Made (ofList (.int true .w32) [3] 1 ([1, 5, 2].map Scalar.int)) :=
    .ofElements (k := .int true .w32) (n := 1) (s := [3]) (l := [1, 5, 2].map Scalar.int) rfl
  have hmake := (Course.start (n := Statistics.ownCount)).make hmade
  have hsummarize := hmake.summarize List.mem_cons_self rfl
  have hview := hsummarize.derive .view List.mem_cons_self rfl
  have hset := hview.write (.set [0] (.int 9)) List.mem_cons_self rfl
  have hcopy := hset.derive .copy
    (List.mem_cons_of_mem _ (List.mem_cons_of_mem _ List.mem_cons_self)) rfl
  refine ⟨_, _, _, _, _, hcopy, List.mem_cons_self, rfl, rfl, ?_, ?_⟩
  · decide
  · decide

end Hyperslab
