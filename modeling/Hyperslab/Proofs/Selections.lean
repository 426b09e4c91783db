import Hyperslab.Dataset.Pieces
import Hyperslab.Proofs.BroadcastArithmetic

/-!
# Selections

A condition and two datasets are walked together over the shape that all three broadcast to. The
result has the item of the first dataset where the condition holds and that of the second one
elsewhere, so it stays the same if the datasets are exchanged and the condition is negated.
-/
namespace Hyperslab

open Dataset List Shape Word

namespace BroadcastWalk

variable {gs : List Geometry} {t : Shape} {n m : Nat} {isDouble : Bool}

/-- The walk of operands over a shape, with a packed output of items of `n` elements. -/
def across (gs : List Geometry) (t : Shape) (n : Nat) (isDouble : Bool) : BroadcastWalk where
  shape := t
  itemSize := n
  inPlace := false
  isDouble := isDouble
  odometer := Odometer.start t
    ((gs.map (Geometry.stretch · t) ++ [Geometry.dense t n]).map Geometry.operand)

section Over

variable (hgs : ∀ g ∈ gs, g.Stretches t ∧ g.strides.length = g.shape.length)
include hgs

theorem strides_across : ∀ g ∈ gs.map (Geometry.stretch · t) ++ [Geometry.dense t n],
    g.shape = t ∧ g.strides.length = t.length := by
  intro g hg
  rcases mem_append.mp hg with hg | hg
  · obtain ⟨f, hf, rfl⟩ := mem_map.mp hg
    exact ⟨rfl, ((hgs f hf).1.shows (hgs f hf).2).length_strides⟩
  · obtain rfl := mem_singleton.mp hg
    exact ⟨rfl, length_strides ..⟩

theorem fault?_across (hm : elementCount t n = .ok m) :
    (across gs t n isDouble).odometer.fault? = none := by
  obtain ⟨c, hc, -⟩ := elementCount_eq_ok_iff.mp hm
  refine (Odometer.fault?_start fun g hg => (strides_across hgs g hg).2).trans ?_
  rw [hc]
  rfl

/-- Packed results are walked in words, so only the operands have to be. -/
theorem allFit_met_across_iff (hn : 0 < n) (hm : elementCount t n = .ok m) :
    AllFit ((across gs t n isDouble).odometer.met (across gs t n isDouble).odometer.remaining) ↔
      ∀ g ∈ gs, AllFit (g.stretch t).walkNumbers := by
  obtain ⟨rfl, hmax⟩ := elementCount_eq_ok hm
  have hhalf : maxElements < half := by decide
  have hdense := Geometry.allFit_walkNumbers_dense hn (hmax.trans_lt hhalf)
  refine (Odometer.allFit_met_start_iff (strides_across hgs)).trans ?_
  simp only [forall_mem_append, forall_mem_map, forall_mem_singleton, hdense, and_true]

end Over

end BroadcastWalk

namespace Dataset

variable {c x y y' d : Block} {t : Shape} {n m : Nat} {p : Position} {w : BroadcastWalk}

/-- A condition and two datasets have a selection of shape `t` and items of `n` elements. -/
structure Selects (c x y : Block) (t : Shape) (n : Nat) : Prop where
  shape_eq : Shape.broadcastAll [c.shape, x.shape, y.shape] = .ok t
  itemSize : x.itemSize = y.itemSize ∨ x.itemSize = 1 ∨ y.itemSize = 1
  itemSize_eq : n = max x.itemSize y.itemSize

/-- The condition holds at what a position is projected to. -/
def holds (c : Block) (p : Position) : Bool := (c.operand p 0).holds

/-- The item that is chosen for a position. -/
def chosenItem (c x y : Block) (p : Position) : List Scalar :=
  (List.range (max x.itemSize y.itemSize)).map fun k =>
    if c.holds p then x.operand p k else y.operand p k

/-- The numbers met in walking operands over a shape are words. -/
def WalkedInWords (ds : List Block) (t : Shape) : Prop :=
  ∀ d ∈ ds, d.HasStrides ∧ Word.AllFit (d.geometry.stretch t).walkNumbers

theorem Selects.stretches (h : Selects c x y t n) (hd : d ∈ [c, x, y]) : d.geometry.Stretches t :=
  @BroadcastWalk.stretches_of_broadcastAll ([c, x, y].map fun d : Block => d.geometry) t
    h.shape_eq _ (mem_map_of_mem hd)

section Sound

variable (hsound : ∀ d ∈ [c, x, y], d.Sound) (hone : c.itemSize = 1)
include hsound

section

variable (h : Selects c x y t n)
include h

theorem Selects.operands : ∀ g ∈ [c, x, y].map fun d : Block => d.geometry,
    g.Stretches t ∧ g.strides.length = g.shape.length := by
  intro g hg
  obtain ⟨d, hd, rfl⟩ := mem_map.mp hg
  exact ⟨h.stretches hd, (hsound d hd).inside.length_strides⟩

theorem Selects.itemSize_pos : 0 < n := by
  have := (hsound x (by simp)).itemSize_pos
  have := h.itemSize_eq
  omega

theorem Selects.operandAt_eq (hp : t.contains p) (hd : d ∈ [c, x, y])
    {k : Nat} (hk : d.itemSize = 1 ∨ k < d.itemSize) :
    d.operandAt ((d.geometry.stretch t).indexOf p) k = .ok (d.operand p k) := by
  have hlength := (hsound d hd).inside.length_strides
  have hstretch := h.stretches hd
  rw [hstretch.indexOf_eq hlength hp]
  exact (hsound d hd).operandAt_eq ((hstretch.shows hlength).contains p hp) hk

theorem Selects.walkedInWords (hpos : 0 < t.size)
    (hwalks : ∀ d ∈ [c, x, y], AllFit d.geometry.walkNumbers) :
    WalkedInWords [c, x, y] t := fun d hd =>
  ⟨Frame.Sound.hasStrides (hsound d hd) ((h.stretches hd).size_pos hpos),
    (h.stretches hd).allFit_walkNumbers (hsound d hd).inside.length_strides (hwalks d hd)⟩

end

include hone

theorem tripleWalk_eq_ok_iff : tripleWalk c x y = .ok w ↔ ∃ t n, Selects c x y t n ∧
    w = .across ([c, x, y].map fun d : Block => d.geometry) t n
      (c.kind.isFloat || x.kind.isFloat || y.kind.isFloat) := by
  have hsizes {n : Nat} : commonItemSize [c.geometry.itemSize, x.geometry.itemSize,
      y.geometry.itemSize] = .ok n ↔ (x.itemSize = y.itemSize ∨ x.itemSize = 1 ∨ y.itemSize = 1) ∧
          n = max x.itemSize y.itemSize := by
    have hc : c.geometry.itemSize = 1 := hone
    rw [hc]
    exact commonItemSize_pair_iff (hsound x (by simp)).itemSize_pos (hsound y (by simp)).itemSize_pos
  have hlengths : ∀ g ∈ [c, x, y].map fun d : Block => d.geometry,
      g.strides.length = g.shape.length :=
    forall_mem_map.mpr fun d hd => (hsound d hd).inside.length_strides
  rw [tripleWalk]
  refine (BroadcastWalk.start_eq_ok_iff hlengths).trans ?_
  simp only [map_cons, map_nil, hsizes]
  constructor
  · rintro ⟨t, n, _, ht, ⟨hsize, hn⟩, ⟨⟩, rfl⟩
    exact ⟨t, n, ⟨ht, hsize, hn⟩, rfl⟩
  · rintro ⟨t, n, h, rfl⟩
    exact ⟨t, n, _, h.shape_eq, ⟨h.itemSize, h.itemSize_eq⟩, rfl, rfl⟩

theorem chosenAt_eq {o : Nat} (h : Selects c x y t n) (hp : t.contains p) (hsize : w.itemSize = n)
    (hindices : w.indices = [(c.geometry.stretch t).indexOf p, (x.geometry.stretch t).indexOf p,
      (y.geometry.stretch t).indexOf p, o]) : chosenAt c x y w = .ok (chosenItem c x y p) := by
  have hholds : c.elementAt ((c.geometry.stretch t).indexOf p) = .ok (c.operand p 0) := by
    have hfirst := h.operandAt_eq hsound hp (by simp : c ∈ [c, x, y]) (k := 0) (.inl hone)
    rwa [operandAt, ite_self] at hfirst
  have hitem := h.itemSize
  have hposX := (hsound x (by simp)).itemSize_pos
  have hposY := (hsound y (by simp)).itemSize_pos
  rw [chosenAt, hindices, hsize, h.itemSize_eq]
  refine (mapM_eq_ok_iff_map (P := fun _ => True) fun k hk v => ?_).mpr ⟨fun _ _ => trivial, rfl⟩
  have hk : k < max x.itemSize y.itemSize := List.mem_range.mp hk
  have hx := h.operandAt_eq hsound hp (by simp : x ∈ [c, x, y])
    (show x.itemSize = 1 ∨ k < x.itemSize by omega)
  have hy := h.operandAt_eq hsound hp (by simp : y ∈ [c, x, y])
    (show y.itemSize = 1 ∨ k < y.itemSize by omega)
  simp only [hholds, ok_bind, hx, hy, holds, true_and]
  by_cases hb : (c.operand p 0).holds <;> simp [hb, eq_comm]

theorem Selects.exists_chosen {k : Nat} (h : Selects c x y t n) (p : Position) (hk : k < n) :
    ∃ b u v, (c.item (c.shape.project p))[0]? = some b ∧
      (x.item (x.shape.project p))[if 1 < x.itemSize then k else 0]? = some u ∧
      (y.item (y.shape.project p))[if 1 < y.itemSize then k else 0]? = some v ∧
      (chosenItem c x y p)[k]? = some (if b.holds then u else v) := by
  have hitem := h.itemSize
  have hposX := (hsound x (by simp)).itemSize_pos
  have hposY := (hsound y (by simp)).itemSize_pos
  have hk : k < max x.itemSize y.itemSize := h.itemSize_eq ▸ hk
  have hfirst := (hsound c (by simp)).getElem?_item p (k := 0) (.inl hone)
  rw [ite_self] at hfirst
  refine ⟨_, _, _, hfirst,
    (hsound x (by simp)).getElem?_item p (show x.itemSize = 1 ∨ k < x.itemSize by omega),
    (hsound y (by simp)).getElem?_item p (show y.itemSize = 1 ∨ k < y.itemSize by omega), ?_⟩
  simp [chosenItem, hk, holds]

theorem collect_across {isDouble : Bool} (h : Selects c x y t n) :
    (BroadcastWalk.across ([c, x, y].map fun d : Block => d.geometry) t n isDouble).collect
      (chosenAt c x y) = .ok (t.positions.map (chosenItem c x y)).flatten := by
  refine BroadcastWalk.collect_eq_ok_iff.mpr ⟨_, (mapM_eq_ok_iff_map (P := fun _ => True)
    (g := fun o => chosenItem c x y o.pos) fun o ho part => ?_).mpr ⟨fun _ _ => trivial, rfl⟩, ?_⟩
  · obtain ⟨hp, hcurrent⟩ := Odometer.mem_toList_start ho
    rw [chosenAt_eq hsound hone h hp rfl (by simp only [BroadcastWalk.indices, hcurrent]; rfl),
      Except.ok.injEq, true_and, eq_comm]
  · rw [← Odometer.map_pos_toList_start t, map_map]
    rfl

/-- **A selection is made just if the operands broadcast, there is room for the result, and the
numbers met are words.** -/
theorem select_eq_ok_iff : select c x y = .ok d ↔ ∃ t n, Selects c x y t n ∧
    (∃ m, reserve x.kind t n = .ok m) ∧ WalkedInWords [c, x, y] t ∧ t.stridesFit n ∧
      d = ofItems x.kind "" t n (chosenItem c x y) := by
  have hcheck : c.checkCondition = .ok () := if_neg (not_not.mpr hone)
  have hmake {t : Shape} {n m : Nat} (h : Selects c x y t n) (hm : reserve x.kind t n = .ok m) :
      ofElements x.kind n t (t.positions.map (chosenItem c x y)).flatten =
        .ok (ofItems x.kind "" t n (chosenItem c x y)) :=
    ofElements_positions (h.itemSize_pos hsound)
      (fun p _ => by rw [chosenItem, length_map, length_range, h.itemSize_eq])
      (reserve_eq_ok hm)
  simp only [select, hcheck, ok_bind, Frame.stridesInWords_bind, stridesChecked_bind,
    bind_eq_ok, ensure_eq_ok, tripleWalk_eq_ok_iff hsound hone, check_eq_ok,
    BroadcastWalk.collectInWords_eq_ok_iff]
  constructor
  · rintro ⟨-, hc, -, hx, -, hy, _, ⟨t, n, h, rfl⟩, -, hfit, -, -, m, hm, l, ⟨hmet, hl⟩, hd⟩
    rw [BroadcastWalk.allFit_met_across_iff (h.operands hsound) (h.itemSize_pos hsound)
      (reserve_eq_ok hm), forall_mem_map] at hmet
    cases (collect_across hsound hone h).symm.trans hl
    cases (hmake h hm).symm.trans hd
    have hstrides : ∀ d ∈ [c, x, y], d.HasStrides := by
      simp only [forall_mem_cons, not_mem_nil, false_implies, implies_true, and_true]
      exact ⟨hc, hx, hy⟩
    exact ⟨t, n, h, ⟨m, hm⟩, fun d hd => ⟨hstrides d hd, hmet d hd⟩, hfit, rfl⟩
  · rintro ⟨t, n, h, ⟨m, hm⟩, hwords, hfit, rfl⟩
    have hmet {b : Bool} := (@BroadcastWalk.allFit_met_across_iff _ t n m b (h.operands hsound)
      (h.itemSize_pos hsound) (reserve_eq_ok hm)).mpr
        (forall_mem_map.mpr fun d hd => (hwords d hd).2)
    exact ⟨(), (hwords c (by simp)).1, (), (hwords x (by simp)).1, (), (hwords y (by simp)).1, _,
      ⟨t, n, h, rfl⟩, (), hfit, (),
      BroadcastWalk.fault?_across (h.operands hsound) (reserve_eq_ok hm), m, hm, _,
      ⟨hmet, collect_across hsound hone h⟩, hmake h hm⟩

end Sound

/-! ## Exchanged datasets -/

theorem Alike.selects_iff (h : y'.Alike y) : Selects c x y' t n ↔ Selects c x y t n := by
  have hshape := h.shape_eq
  have hsize := h.itemSize_eq
  constructor
  · rintro ⟨ht, hitem, hn⟩
    exact ⟨hshape ▸ ht, hsize ▸ hitem, hsize ▸ hn⟩
  · rintro ⟨ht, hitem, hn⟩
    exact ⟨hshape.symm ▸ ht, hsize.symm ▸ hitem, hsize.symm ▸ hn⟩

theorem Alike.chosenItem_eq (h : y'.Alike y) (hy : y.Sound) (hselects : Selects c x y t n)
    (hp : t.contains p) : chosenItem c x y' p = chosenItem c x y p := by
  simp only [chosenItem, h.itemSize_eq, h.operand_eq hy (hselects.stretches (by simp)) hp]

theorem Selects.swap {c' : Block} (h : Selects c x y t n) (hshape : c'.shape = c.shape) :
    Selects c' y x t n where
  shape_eq := by
    have hjoins := broadcastAll_eq_ok_iff.mp h.shape_eq
    rw [hshape]
    exact broadcastAll_eq_ok_iff.mpr
      ((Joins.congr fun s => by simp [or_comm (a := s = x.shape)]).mp hjoins)
  itemSize := by
    have := h.itemSize
    omega
  itemSize_eq := h.itemSize_eq.trans (max_comm ..)

theorem chosenItem_swap {c' : Block} (hnot : c'.holds p = !c.holds p) :
    chosenItem c' y x p = chosenItem c x y p := by
  simp only [chosenItem, hnot, max_comm y.itemSize]
  cases c.holds p <;> rfl

theorem holds_project (hp : c.shape.contains (c.shape.project p)) :
    c.holds (c.shape.project p) = c.holds p := by
  simp only [holds, operand, project_self hp]

end Dataset

/-! ## Datasets of a store -/

namespace Handle

variable {c x y r : Handle} {s s' : Store} {t : Shape} {n m : Nat} {k : Kind}

/-- The numbers met in a selection are words: those of the copy of the second dataset, if it shares
the buffer of the first one, and those of the walk. -/
structure SelectsInWords (c x y : Handle) (s : Store) (t : Shape) : Prop where
  copy : y.sharesBuffer x = true → y.CopiesInWords
  walked : Dataset.WalkedInWords [s.read c, s.read x, s.beside y x] t

section Held

variable (hc : c.Held s) (hx : x.Held s) (hy : y.Held s)
include hc hx hy

theorem Held.sound_operands : ∀ d ∈ [s.read c, s.read x, s.beside y x], d.Sound := by
  simp only [forall_mem_cons, not_mem_nil, false_implies, implies_true, and_true]
  exact ⟨hc.sound, hx.sound, hy.sound_beside⟩

/-- The selection of datasets of a store, and when there is one. -/
theorem Held.run_select_iff (hone : c.itemSize = 1) : (select c x y).run s = (.ok r, s') ↔
    ∃ t n, (s.read c).Selects (s.read x) (s.read y) t n ∧ (∃ m, reserve x.kind t n = .ok m) ∧
      c.SelectsInWords x y s t ∧ t.stridesFit n ∧ (r, s') = s.adopt (ofItems x.kind "" t n
        (chosenItem (s.read c) (s.read x) (s.read y))) := by
  have hcheck : (s.read c).checkCondition = .ok () := if_neg (not_not.mpr hone)
  have halike : (s.beside y x).Alike (s.read y) := hy.alike_beside
  have hitems {t : Shape} {n : Nat} (h : (s.read c).Selects (s.read x) (s.read y) t n) :
      ofItems x.kind "" t n (chosenItem (s.read c) (s.read x) (s.beside y x)) =
        ofItems x.kind "" t n (chosenItem (s.read c) (s.read x) (s.read y)) :=
    ofItems_congr fun p hp => halike.chosenItem_eq hy.sound h hp
  have hselect {d : Block} := select_eq_ok_iff (d := d) (hc.sound_operands hx hy) hone
  rw [select, run_bind, run_peek, andThen_ok, run_bind, run_lift, hcheck, andThen_ok,
    run_bind_eq_ok]
  simp only [hy.run_besideInWords_iff]
  constructor
  · rintro ⟨_, _, ⟨⟨rfl, rfl⟩, hcopy⟩, hrun⟩
    rw [run_bind, run_peek, andThen_ok] at hrun
    obtain ⟨d, hd, hadopt⟩ := run_adopt_eq_ok_iff.mp hrun
    obtain ⟨t, n, h, hm, hwalk, hfit, rfl⟩ := hselect.mp hd
    rw [halike.selects_iff] at h
    exact ⟨t, n, h, hm, ⟨hcopy, hwalk⟩, hfit, hitems h ▸ hadopt⟩
  · rintro ⟨t, n, h, hm, hwords, hfit, hadopt⟩
    refine ⟨_, s, ⟨⟨rfl, rfl⟩, hwords.copy⟩, ?_⟩
    rw [run_bind, run_peek, andThen_ok]
    refine run_adopt_eq_ok_iff.mpr ⟨_, hselect.mpr
      ⟨t, n, halike.selects_iff.mpr h, hm, hwords.walked, hfit, rfl⟩, ?_⟩
    exact (hitems h).symm ▸ hadopt

/-- Operands that can be read are walked, if the result has items. -/
theorem Held.selectsInWords_of_pos (h : (s.read c).Selects (s.read x) (s.read y) t n)
    (hm : reserve k t n = .ok m) (hpos : 0 < t.size)
    (hwalks : ∀ h ∈ [c, x, y], AllFit h.geometry.walkNumbers)
    (hmeta : y.sharesBuffer x = true → y.metadata.CopiesInWords) :
    c.SelectsInWords x y s t ∧ t.stridesFit n := by
  have hsound := hc.sound_operands hx hy
  have hbeside := (hy.alike_beside (a := x)).selects_iff.mpr h
  have hright := hwalks y (by simp)
  have hwalk : ∀ d ∈ [s.read c, s.read x, s.beside y x], AllFit d.geometry.walkNumbers := by
    simp only [forall_mem_cons, not_mem_nil, false_implies, implies_true, and_true]
    exact ⟨hwalks c (by simp), hwalks x (by simp), hy.allFit_walkNumbers_beside hright⟩
  have hstretch : (s.read y).geometry.Stretches t := h.stretches (by simp)
  refine ⟨⟨fun hshares => ⟨hy.sound.hasStrides (hstretch.size_pos hpos), hright, hmeta hshares⟩,
    hbeside.walkedInWords hsound hpos hwalk⟩, ?_⟩
  obtain ⟨rfl, hmax⟩ := elementCount_eq_ok (reserve_eq_ok hm)
  have hhalf : maxElements < half := by decide
  exact stridesFit_of_pos (hbeside.itemSize_pos hsound) hpos (hmax.trans_lt hhalf)

end Held

/-- **A selection is pointwise.** Where there is room, it exists just if the shapes broadcast, the
item sizes agree or one is one, and the numbers met are words, as they are if there are items and
all that is read or copied can be. It is a packed dataset of its own, with elements of the first
dataset where the condition holds and of the second one elsewhere. -/
theorem selection_pointwise (hc : c.Held s) (hx : x.Held s) (hy : y.Held s)
    (hone : c.itemSize = 1) (hkind : y.kind = x.kind)
    (hroom : ∀ t, Shape.broadcastAll [c.shape, x.shape, y.shape] = .ok t →
      ∃ m, reserve x.kind t (max x.itemSize y.itemSize) = .ok m) :
    ((∃ r s', (select c x y).run s = (.ok r, s')) ↔
      ∃ t n, (s.read c).Selects (s.read x) (s.read y) t n ∧ c.SelectsInWords x y s t ∧
        t.stridesFit n = true) ∧
    (∀ t n, (s.read c).Selects (s.read x) (s.read y) t n → 0 < t.size →
      (∀ h ∈ [c, x, y], Word.AllFit h.geometry.walkNumbers) →
      (y.sharesBuffer x = true → y.metadata.CopiesInWords) →
        c.SelectsInWords x y s t ∧ t.stridesFit n = true) ∧
    (∀ r s', (select c x y).run s = (.ok r, s') →
      (r.Held s' ∧ r.kind = x.kind ∧ r.layout = .dense) ∧
      (s.read c).Selects (s.read x) (s.read y) r.shape r.itemSize ∧
      (r.buffer = s.buffers.size ∧ ∀ id < s.buffers.size, s'.buffer id = s.buffer id) ∧
      ∀ p, r.shape.contains p = true → ∀ k < r.itemSize, ∃ b u v,
        ((s.read c).item (c.shape.project p))[0]? = some b ∧
        ((s.read x).item (x.shape.project p))[if 1 < x.itemSize then k else 0]? = some u ∧
        ((s.read y).item (y.shape.project p))[if 1 < y.itemSize then k else 0]? = some v ∧
        ((s'.read r).item p)[k]? = some (if b.holds then u else v)) ∧
    (∀ c' : Handle, c'.Held s → c'.shape = c.shape → c'.itemSize = 1 →
      (∀ p, c.shape.contains p = true → (s.read c').holds p = !(s.read c).holds p) →
      ∀ r s' r' s'', (select c x y).run s = (.ok r, s') → (select c' y x).run s = (.ok r', s'') →
        r' = r ∧ s'' = s') := by
  have hreserve {t : Shape} {n : Nat} (h : (s.read c).Selects (s.read x) (s.read y) t n) :
      ∃ m, reserve x.kind t n = .ok m := by
    obtain ⟨m, hm⟩ := hroom t h.shape_eq
    exact ⟨m, h.itemSize_eq ▸ hm⟩
  have hsound : ∀ d ∈ [s.read c, s.read x, s.read y], d.Sound := by
    simp only [List.forall_mem_cons, List.not_mem_nil, false_implies, implies_true, and_true]
    exact ⟨hc.sound, hx.sound, hy.sound⟩
  refine ⟨?_, fun t n h hpos => ?_, fun r s' hrun => ?_, ?_⟩
  · simp only [hc.run_select_iff hx hy hone]
    constructor
    · rintro ⟨_, _, t, n, h, -, hwords, hfit, -⟩
      exact ⟨t, n, h, hwords, hfit⟩
    · rintro ⟨t, n, h, hwords, hfit⟩
      exact ⟨_, _, t, n, h, hreserve h, hwords, hfit, rfl⟩
  · obtain ⟨m, hm⟩ := hreserve h
    exact hc.selectsInWords_of_pos hx hy h hm hpos
  · obtain ⟨t, n, h, ⟨m, hm⟩, -, -, hadopt⟩ := (hc.run_select_iff hx hy hone).mp hrun
    obtain rfl : r = (s.adopt _).1 := congrArg Prod.fst hadopt
    obtain rfl : s' = (s.adopt _).2 := congrArg Prod.snd hadopt
    have hn := h.itemSize_pos hsound
    have hlength (p : Position) (_ : t.contains p) :
        (Dataset.chosenItem (s.read c) (s.read x) (s.read y) p).length = n := by
      rw [Dataset.chosenItem, List.length_map, List.length_range, h.itemSize_eq]
    obtain ⟨rfl, hmax⟩ := elementCount_eq_ok (reserve_eq_ok hm)
    refine ⟨⟨held_adopt (Dataset.sound_ofItems hn hlength (bytes_mul_lt hmax)) s, rfl, rfl⟩, h,
      ⟨rfl, fun id hid => Store.buffer_push hid _⟩, fun p hp k hk => ?_⟩
    rw [Store.read_adopt, Dataset.item_ofItems hn hlength (bytes_mul_lt hmax) hp]
    exact h.exists_chosen hsound hone p hk
  · intro c' hc' hshape hone' hnot r s' r' s'' hrun hrun'
    obtain ⟨t, n, h, -, -, -, hadopt⟩ := (hc.run_select_iff hx hy hone).mp hrun
    obtain ⟨t', n', h', -, -, -, hadopt'⟩ := (hc'.run_select_iff hy hx hone').mp hrun'
    have hswap : (s.read c').Selects (s.read y) (s.read x) t n := h.swap hshape
    obtain rfl : t' = t := Except.ok.inj (h'.shape_eq.symm.trans hswap.shape_eq)
    obtain rfl : n' = n := h'.itemSize_eq.trans hswap.itemSize_eq.symm
    have hitems : Dataset.ofItems y.kind "" t' n'
          (Dataset.chosenItem (s.read c') (s.read y) (s.read x)) =
        Dataset.ofItems x.kind "" t' n'
          (Dataset.chosenItem (s.read c) (s.read x) (s.read y)) := by
      rw [hkind]
      refine Dataset.ofItems_congr fun p hp => Dataset.chosenItem_swap ?_
      have hin : (s.read c).shape.contains ((s.read c).shape.project p) :=
        ((h.stretches (by simp)).shows hc.sound.inside.length_strides).contains p hp
      have hin' : (s.read c').shape = (s.read c).shape := hshape
      rw [← Dataset.holds_project hin, ← hnot _ hin, ← hin', Dataset.holds_project (hin' ▸ hin)]
    rw [hitems, ← hadopt] at hadopt'
    exact Prod.mk.inj hadopt'

/-- The rows of `Dataset.pairRows` but for the second one. -/
def outerRows : Block := Dataset.ofList .bool [3, 1] 1 ([true, false, true].map Scalar.bool)

/-- Marks beside the rows in `pairStore`. -/
def marked : Handle × Store := pairStore.adopt outerRows

theorem selection_pointwise_shared : ∃ (s s' : Store) (c x y r : Handle), c.Held s ∧ x.Held s ∧
    c.shape = [3, 1] ∧ y.shape = [1, 2] ∧ y.sharesBuffer x = true ∧
    (select c x y).run s = (.ok r, s') ∧ r.shape = [3, 2] ∧
    ((s'.read r).item [1, 0])[1]? = some (.int 9) := by
  have hc : marked.1.Held marked.2 := by decide +kernel
  have hx : pairHandle.Held marked.2 := by decide +kernel
  have hbroadcast : Shape.broadcastAll [marked.1.shape, pairHandle.shape, lastPairs.shape] =
      .ok [3, 2] := rfl
  have hselects : (marked.2.read marked.1).Selects (marked.2.read pairHandle)
      (marked.2.read lastPairs) [3, 2] 2 := ⟨hbroadcast, .inl rfl, rfl⟩
  obtain ⟨hsucceeds, hwords, hresult, -⟩ := selection_pointwise hc hx
    (by decide +kernel : lastPairs.Held _) rfl rfl
    fun t ht => Except.ok.inj (hbroadcast.symm.trans ht) ▸ ⟨12, rfl⟩
  obtain ⟨r, s', hrun⟩ := hsucceeds.mpr ⟨_, _, hselects, hwords _ _ hselects (by decide)
    (by decide) fun _ => Metadata.copiesInWords_empty⟩
  obtain ⟨-, hselects', -, helements⟩ := hresult r s' hrun
  have hthree : r.shape = [3, 2] := Except.ok.inj (hselects'.shape_eq.symm.trans hbroadcast)
  obtain ⟨b, u, v, hb, -, hv, hitem⟩ :=
    helements [1, 0] (by rw [hthree]; rfl) 1 (by rw [hselects'.itemSize_eq]; decide)
  obtain rfl : Scalar.bool false = b := Option.some.inj hb
  obtain rfl : Scalar.int 9 = v := Option.some.inj hv
  exact ⟨_, s', _, _, lastPairs, r, hc, hx, rfl, rfl, rfl, hrun, hthree, hitem⟩

/-- A condition that holds in none of four layers. -/
def noLayers : Block := Dataset.ofList .bool [4, 1, 1] 1 (List.replicate 4 (.bool false))

/-- A selection without items has strides that are no words. -/
theorem empty_strides_stop_selection : ∃ (s : Store) (c x : Handle), c.Held s ∧ x.Held s ∧
    c.itemSize = 1 ∧ (s.read c).Selects (s.read x) (s.read x) [4, 0, 4611686018427387904] 1 ∧
    (∀ t, Shape.broadcastAll [c.shape, x.shape, x.shape] = .ok t →
      ∃ m, reserve x.kind t (max x.itemSize x.itemSize) = .ok m) ∧
    (select c x x).run s = (.error (.fault .overflow), s) :=
  ⟨((Store.empty.adopt noLayers).2.adopt longRows).2, (Store.empty.adopt noLayers).1,
    ((Store.empty.adopt noLayers).2.adopt longRows).1, by decide +kernel, by decide +kernel, rfl,
    ⟨rfl, .inl rfl, rfl⟩, fun t ht => by cases ht; exact ⟨0, rfl⟩, rfl⟩

end Handle

end Hyperslab
