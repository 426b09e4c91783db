import Hyperslab.Proofs.OperandsInWords
import Hyperslab.Proofs.Reshapes

/-!
# Arithmetic of broadcast datasets

Two datasets of a store are operands if their shapes broadcast and their item sizes agree or one of
them is one. The result is a packed dataset of its own, whose elements are those of the operation on
the elements that the operands have at each position. A right operand over the buffer of the left
one is copied first, which changes none of its items.

In words, the strides of dense operands and of the result are computed, and the operands are walked
together. Where the result has items, the operands are walked if they could be read.
-/
namespace Hyperslab

open Dataset Word

namespace Dataset

variable {a b d e other : Block} {op : BinaryOp} {out : Kind} {t : Shape} {n : Nat}
  {w : BroadcastWalk} {g : Geometry}

/-! ## Walking operands in words -/

/-- The numbers met in walking two operands over the shape of their results are words. -/
structure PairsInWords (a b : Block) (t : Shape) : Prop where
  left : a.HasStrides
  right : b.HasStrides
  leftWalk : Word.AllFit (a.geometry.stretch t).walkNumbers
  rightWalk : Word.AllFit (b.geometry.stretch t).walkNumbers

theorem pairWalkInWords_none_iff : pairWalkInWords a b none = .ok w ↔ pairWalk a b none = .ok w ∧
    (a.HasStrides ∧ b.HasStrides) ∧ w.shape.stridesFit w.itemSize := by
  rw [pairWalkInWords, Frame.stridesInWords_bind, Frame.stridesInWords_bind]
  simp only [Option.isNone_none, if_true, Shape.stridesChecked_bind, bind_eq_ok, pure_eq_ok,
    ensure_eq_ok]
  constructor
  · rintro ⟨-, ha, -, hb, w, hw, -, hfit, rfl⟩
    exact ⟨hw, ⟨ha, hb⟩, hfit⟩
  · rintro ⟨hw, ⟨ha, hb⟩, hfit⟩
    exact ⟨(), ha, (), hb, w, hw, (), hfit, rfl⟩

theorem evaluateInWords_eq_ok_iff {l : List (Nat × Scalar)} :
    evaluateInWords op out a b w = .ok l ↔
      AllFit (w.odometer.met w.odometer.remaining) ∧ evaluate op out a b w = .ok l := by
  simp only [evaluateInWords, evaluate, bind_eq_ok, BroadcastWalk.collectInWords_eq_ok_iff]
  constructor
  · rintro ⟨u, hfault, v, hlist, hmet, hcollect⟩
    exact ⟨hmet, u, hfault, v, hlist, hcollect⟩
  · rintro ⟨hmet, u, hfault, v, hlist, hcollect⟩
    exact ⟨u, hfault, v, hlist, hmet, hcollect⟩

/-- The walk of two operands and an output meets words just if the walk of each of them does. -/
theorem allFit_met_pairOf_iff (inPlace : Bool) (ha : a.Sound) (hb : b.Sound)
    (hpairs : a.Pairs b t n) (hshape : g.shape = t) (hlength : g.strides.length = t.length) :
    AllFit ((pairOf a b t n g inPlace).odometer.met (pairOf a b t n g inPlace).odometer.remaining) ↔
      AllFit (a.geometry.stretch t).walkNumbers ∧
        AllFit (b.geometry.stretch t).walkNumbers ∧ AllFit g.walkNumbers := by
  have hshows := hpairs.stretches.1.shows ha.inside.length_strides
  have hshows' := hpairs.stretches.2.shows hb.inside.length_strides
  have hwalk : AllFit ((pairOf a b t n g inPlace).odometer.met
      (pairOf a b t n g inPlace).odometer.remaining) ↔
        ∀ v ∈ [a.geometry.stretch t, b.geometry.stretch t, g], AllFit v.walkNumbers := by
    refine Odometer.allFit_met_start_iff ?_
    simp only [List.forall_mem_cons, List.not_mem_nil, false_implies, implies_true, and_true]
    exact ⟨⟨rfl, hshows.length_strides⟩, ⟨rfl, hshows'.length_strides⟩, hshape, hlength⟩
  rw [hwalk]
  simp only [List.forall_mem_cons, List.not_mem_nil, false_implies, implies_true, and_true]

theorem shape_of_ofElements {k : Kind} {l : List Scalar} (h : ofElements k n t l = .ok d) :
    d.shape = t ∧ d.itemSize = n := by
  obtain ⟨rfl, -⟩ := ofElements_eq_packed h
  exact ⟨rfl, rfl⟩

/-- A packed output is walked in words, so only the operands have to be. -/
theorem allFit_met_pairOf_dense_iff {m : Nat} (inPlace : Bool) (ha : a.Sound) (hb : b.Sound)
    (hpairs : a.Pairs b t n) (hm : elementCount t n = .ok m) :
    AllFit ((pairOf a b t n (.dense t n) inPlace).odometer.met
        (pairOf a b t n (.dense t n) inPlace).odometer.remaining) ↔
      AllFit (a.geometry.stretch t).walkNumbers ∧ AllFit (b.geometry.stretch t).walkNumbers := by
  have hpos := ha.itemSize_pos
  have hsize := hpairs.itemSize_eq
  obtain ⟨rfl, hmax⟩ := elementCount_eq_ok hm
  have hhalf : maxElements < half := by decide
  have hdense := Geometry.allFit_walkNumbers_dense (by omega : 0 < n) (hmax.trans_lt hhalf)
  rw [allFit_met_pairOf_iff inPlace ha hb hpairs rfl (Shape.length_strides ..)]
  simp only [hdense, and_true]

/-- **Arithmetic in words is the arithmetic over exact integers, if the numbers met are words.** -/
theorem Sound.binaryInWords_eq_ok_iff (ha : a.Sound) (hb : b.Sound) :
    binaryInWords op out a b = .ok d ↔ binary op out a b = .ok d ∧ a.PairsInWords b d.shape ∧
      d.shape.stridesFit d.itemSize := by
  simp only [binaryInWords, binary, bind_eq_ok, pairWalkInWords_none_iff, pairWalk_none_iff ha hb,
    evaluateInWords_eq_ok_iff]
  constructor
  · rintro ⟨_, ⟨⟨t, n, hpairs, rfl⟩, ⟨hleft, hright⟩, hfit⟩, l, ⟨hwalk, hl⟩, m, hm, hd⟩
    obtain ⟨rfl, rfl⟩ := shape_of_ofElements hd
    rw [allFit_met_pairOf_dense_iff _ ha hb hpairs (reserve_eq_ok hm)] at hwalk
    exact ⟨⟨_, ⟨_, _, hpairs, rfl⟩, l, hl, m, hm, hd⟩, ⟨hleft, hright, hwalk.1, hwalk.2⟩, hfit⟩
  · rintro ⟨⟨_, ⟨t, n, hpairs, rfl⟩, l, hl, m, hm, hd⟩, hwords, hfit⟩
    obtain ⟨rfl, rfl⟩ := shape_of_ofElements hd
    have hwalk := (allFit_met_pairOf_dense_iff false ha hb hpairs (reserve_eq_ok hm)).mpr
      ⟨hwords.leftWalk, hwords.rightWalk⟩
    exact ⟨_, ⟨⟨_, _, hpairs, rfl⟩, ⟨hwords.left, hwords.right⟩, hfit⟩, l, ⟨hwalk, hl⟩, m, hm, hd⟩

end Dataset

/-! ## The right operand -/

namespace Dataset

/-- Two datasets of the same items, which may lie anywhere. -/
structure Alike (e d : Block) : Prop where
  kind_eq : e.kind = d.kind
  shape_eq : e.shape = d.shape
  itemSize_eq : e.itemSize = d.itemSize
  item_eq : ∀ p, d.shape.contains p = true → e.item p = d.item p

variable {a b b' : Block} {op : BinaryOp} {out : Kind} {t : Shape} {n : Nat}

theorem Sound.alike_dense (h : b.Sound) : b.dense.Alike b := by
  rw [dense_eq]
  exact ⟨rfl, rfl, rfl, fun p hp =>
    item_ofItems h.itemSize_pos (fun p _ => length_item b p) h.listable hp⟩

theorem Alike.pairs_iff (h : b'.Alike b) : a.Pairs b' t n ↔ a.Pairs b t n := by
  constructor
  · rintro ⟨hshape, hitem, hsize⟩
    rw [h.shape_eq] at hshape
    rw [h.itemSize_eq] at hitem hsize
    exact ⟨hshape, hitem, hsize⟩
  · rintro ⟨hshape, hitem, hsize⟩
    rw [← h.shape_eq] at hshape
    rw [← h.itemSize_eq] at hitem hsize
    exact ⟨hshape, hitem, hsize⟩

theorem Alike.operand_eq (h : b'.Alike b) (hb : b.Sound) (hstretch : b.geometry.Stretches t)
    {p : Position} (hp : t.contains p) (k : Nat) : b'.operand p k = b.operand p k := by
  have hproject : b.shape.contains (b.shape.project p) :=
    (hstretch.shows hb.inside.length_strides).contains p hp
  rw [operand, operand, h.shape_eq, h.itemSize_eq, h.item_eq _ hproject, h.kind_eq]

section Pairs

variable (h : b'.Alike b) (hb : b.Sound) (hpairs : a.Pairs b t n)
include h hb hpairs

/-- Results are found of the items of an operand, wherever they lie. -/
theorem Alike.pairItem_eq {p : Position} (hp : t.contains p) :
    pairItem op out a b' p = pairItem op out a b p := by
  simp only [pairItem, h.itemSize_eq, h.kind_eq, h.operand_eq hb hpairs.stretches.2 hp]

theorem Alike.defined_iff : Defined op out a b' t ↔ Defined op out a b t := by
  refine forall₂_congr fun p hp => ?_
  simp only [h.itemSize_eq, h.kind_eq, h.operand_eq hb hpairs.stretches.2 hp]

end Pairs

end Dataset

@[simp] theorem Store.read_adopt (s : Store) (d : Block) :
    (s.adopt d).2.read (s.adopt d).1 = d := by
  simp [read, buffer, adopt]

theorem Handle.held_adopt {d : Block} (hd : d.Sound) (s : Store) :
    (s.adopt d).1.Held (s.adopt d).2 := by
  refine ⟨by simp [Store.adopt], ?_⟩
  have hbuffer : (s.adopt d).2.buffer (s.adopt d).1.buffer = d.buffer := Store.buffer_adopt_self s d
  rw [hbuffer]
  exact hd

/-- A dataset as the right operand beside another one: a copy if the two share their buffer. -/
def Store.beside (s : Store) (b a : Handle) : Block :=
  if b.sharesBuffer a then (s.read b).dense else s.read b

namespace Handle

variable {a b r : Handle} {s s' : Store} {op : BinaryOp} {out : Kind} {t : Shape} {n : Nat}

section

variable (hb : b.Held s)
include hb

theorem Held.sound_beside : (s.beside b a).Sound := by
  unfold Store.beside
  split
  · exact Sound.dense (d := s.read b) hb.sound _
  · exact hb.sound

theorem Held.alike_beside : (s.beside b a).Alike (s.read b) := by
  unfold Store.beside
  split
  · exact Sound.alike_dense hb.sound
  · exact ⟨rfl, rfl, rfl, fun _ _ => rfl⟩

theorem Held.allFit_walkNumbers_beside (hwalk : AllFit b.geometry.walkNumbers) :
    AllFit (s.beside b a).geometry.walkNumbers := by
  unfold Store.beside
  split
  · exact Frame.Sound.allFit_walkNumbers_of_dense (Sound.dense (d := s.read b) hb.sound _) rfl
  · exact hwalk

theorem Held.run_read : b.read.run s = (.ok (s.read b), s) := by
  have hcheck : (s.read b).checkRead = .ok () := check_eq_ok.mpr hb.sound.fault_eq_none
  simp only [read, run_bind, run_peek, andThen_ok, run_lift, hcheck, run_pure]

theorem Held.run_beside : (b.beside a).run s = (.ok (s.beside b a), s) := by
  unfold beside Store.beside
  split
  · simp only [run_bind, hb.run_read, andThen_ok, run_pure]
  · exact run_peek b s

theorem Held.run_readInWords_iff {x : Block} :
    b.readInWords.run s = (.ok x, s') ↔ (x = s.read b ∧ s' = s) ∧
      b.HasStrides ∧ AllFit b.geometry.walkNumbers := by
  simp only [readInWords, run_bind_eq_ok, run_lift_eq_ok, Frame.checkWalk_eq, ensure_eq_ok]
  constructor
  · rintro ⟨-, _, ⟨hwords, rfl⟩, hrun⟩
    rw [hb.run_read] at hrun
    cases hrun
    exact ⟨⟨rfl, rfl⟩, hwords⟩
  · rintro ⟨⟨rfl, rfl⟩, hwords⟩
    exact ⟨(), _, ⟨hwords, rfl⟩, hb.run_read⟩

/-- In words, a right operand that is copied has to be walked, and so has what is attached to it. -/
theorem Held.run_besideInWords_iff {x : Block} :
    (b.besideInWords a).run s = (.ok x, s') ↔ (x = s.beside b a ∧ s' = s) ∧
      (b.sharesBuffer a → b.CopiesInWords) := by
  unfold besideInWords Store.beside
  by_cases hshares : b.sharesBuffer a
  · rw [if_pos hshares, if_pos hshares, run_bind_eq_ok]
    simp only [hb.run_readInWords_iff, run_bind_eq_ok, run_lift_eq_ok, Metadata.checkCopy_eq,
      ensure_eq_ok, run_pure_eq_ok]
    constructor
    · rintro ⟨_, _, ⟨⟨rfl, rfl⟩, hown, hwalk⟩, -, _, ⟨hmeta, rfl⟩, rfl, rfl⟩
      exact ⟨⟨rfl, rfl⟩, fun _ => ⟨hown, hwalk, hmeta⟩⟩
    · rintro ⟨⟨rfl, rfl⟩, hwords⟩
      obtain ⟨hown, hwalk, hmeta⟩ := hwords hshares
      exact ⟨_, _, ⟨⟨rfl, rfl⟩, hown, hwalk⟩, (), _, ⟨hmeta, rfl⟩, rfl, rfl⟩
  · rw [if_neg hshares, if_neg hshares]
    constructor
    · rintro ⟨⟩
      exact ⟨⟨rfl, rfl⟩, fun h => absurd h hshares⟩
    · rintro ⟨⟨rfl, rfl⟩, -⟩
      rfl

end

theorem run_adopt_eq_ok_iff {x : Except Error Block} :
    ((liftM x : StoreM Block) >>= adopt).run s = (.ok r, s') ↔
      ∃ d, x = .ok d ∧ (r, s') = s.adopt d := by
  rw [run_bind, run_lift]
  cases x with
  | error e =>
    constructor
    · rintro ⟨⟩
    · rintro ⟨_, ⟨⟩, -⟩
  | ok d =>
    constructor
    · rintro ⟨⟩
      exact ⟨d, rfl, rfl⟩
    · rintro ⟨_, ⟨⟩, hadopt⟩
      rw [andThen_ok, run_adopt, ← hadopt]

theorem Held.run_binary_eq_ok_iff (hb : b.Held s) : (binary op out a b).run s = (.ok r, s') ↔
    ∃ d, Dataset.binary op out (s.read a) (s.beside b a) = .ok d ∧ (r, s') = s.adopt d := by
  rw [binary, run_bind, hb.run_beside, andThen_ok, run_bind, run_peek]
  exact run_adopt_eq_ok_iff

theorem Held.run_binaryInWords_eq_ok_iff (hb : b.Held s) :
    (binaryInWords op out a b).run s = (.ok r, s') ↔
      (b.sharesBuffer a → b.CopiesInWords) ∧
      ∃ d, Dataset.binaryInWords op out (s.read a) (s.beside b a) = .ok d ∧
        (r, s') = s.adopt d := by
  rw [binaryInWords, run_bind_eq_ok]
  simp only [hb.run_besideInWords_iff]
  constructor
  · rintro ⟨_, _, ⟨⟨rfl, rfl⟩, hcopy⟩, hrun⟩
    exact ⟨hcopy, run_adopt_eq_ok_iff.mp hrun⟩
  · rintro ⟨hcopy, hd⟩
    refine ⟨_, s, ⟨⟨rfl, rfl⟩, hcopy⟩, ?_⟩
    exact run_adopt_eq_ok_iff.mpr hd

/-! ## The result -/

/-- The numbers met in the arithmetic of two datasets of a store are words: those of the copy of the
right operand, if it shares the buffer of the left one, and those of the walk. -/
structure PairsInWords (a b : Handle) (s : Store) (t : Shape) : Prop where
  copy : b.sharesBuffer a = true → b.CopiesInWords
  pairs : (s.read a).PairsInWords (s.beside b a) t

section Held

variable (ha : a.Held s) (hb : b.Held s)
include ha hb

theorem Held.run_binary_iff : (binary op out a b).run s = (.ok r, s') ↔
    ∃ t n, (s.read a).Pairs (s.read b) t n ∧ (∃ m, reserve out t n = .ok m) ∧
      Defined op out (s.read a) (s.read b) t ∧ (r, s') = s.adopt (ofItems out "" t n
        (pairItem op out (s.read a) (s.read b))) := by
  have hown : (s.read a).Sound := ha.sound
  have halike : (s.beside b a).Alike (s.read b) := hb.alike_beside
  have hitems {t : Shape} {n : Nat} (hpairs : (s.read a).Pairs (s.read b) t n) :
      ofItems out "" t n (pairItem op out (s.read a) (s.beside b a)) =
        ofItems out "" t n (pairItem op out (s.read a) (s.read b)) :=
    ofItems_congr fun p hp => halike.pairItem_eq hb.sound hpairs hp
  rw [hb.run_binary_eq_ok_iff]
  simp only [hown.binary_eq_ok_iff hb.sound_beside, halike.pairs_iff]
  constructor
  · rintro ⟨_, ⟨t, n, hpairs, hm, hdefined, rfl⟩, hadopt⟩
    rw [halike.defined_iff hb.sound hpairs] at hdefined
    exact ⟨t, n, hpairs, hm, hdefined, hitems hpairs ▸ hadopt⟩
  · rintro ⟨t, n, hpairs, hm, hdefined, hadopt⟩
    rw [← halike.defined_iff hb.sound hpairs] at hdefined
    exact ⟨_, ⟨t, n, hpairs, hm, hdefined, rfl⟩, (hitems hpairs).symm ▸ hadopt⟩

theorem Held.run_binaryInWords_iff : (binaryInWords op out a b).run s = (.ok r, s') ↔
    (binary op out a b).run s = (.ok r, s') ∧ a.PairsInWords b s r.shape ∧
      r.shape.stridesFit r.itemSize := by
  have hown : (s.read a).Sound := ha.sound
  rw [hb.run_binaryInWords_eq_ok_iff, hb.run_binary_eq_ok_iff]
  simp only [hown.binaryInWords_eq_ok_iff hb.sound_beside]
  constructor
  · rintro ⟨hcopy, d, ⟨hd, hwords, hfit⟩, hadopt⟩
    obtain ⟨rfl, -⟩ := Prod.mk.inj hadopt
    exact ⟨⟨d, hd, hadopt⟩, ⟨hcopy, hwords⟩, hfit⟩
  · rintro ⟨⟨d, hd, hadopt⟩, hwords, hfit⟩
    obtain ⟨rfl, -⟩ := Prod.mk.inj hadopt
    exact ⟨hwords.copy, d, ⟨hd, hwords.pairs, hfit⟩, hadopt⟩

/-- Operands that can be read are walked, if the result has items. -/
theorem Held.pairsInWords_of_pos {m : Nat} (hpairs : (s.read a).Pairs (s.read b) t n)
    (hm : reserve out t n = .ok m) (hpos : 0 < t.size) (hleft : AllFit a.geometry.walkNumbers)
    (hright : AllFit b.geometry.walkNumbers)
    (hmeta : b.sharesBuffer a = true → b.metadata.CopiesInWords) :
    a.PairsInWords b s t ∧ t.stridesFit n := by
  have hown : (s.read a).Sound := ha.sound
  have hbeside : (s.beside b a).Sound := hb.sound_beside
  have hpairs' : (s.read a).Pairs (s.beside b a) t n := hb.alike_beside.pairs_iff.mpr hpairs
  obtain ⟨hstretch, hstretch'⟩ := hpairs'.stretches
  have hwalk := hb.allFit_walkNumbers_beside (a := a) hright
  refine ⟨⟨fun hshares =>
      ⟨hb.sound.hasStrides (hpairs.stretches.2.size_pos hpos), hright, hmeta hshares⟩,
    ha.sound.hasStrides (hstretch.size_pos hpos),
    Frame.Sound.hasStrides hbeside (hstretch'.size_pos hpos),
    hstretch.allFit_walkNumbers hown.inside.length_strides hleft,
    hstretch'.allFit_walkNumbers hbeside.inside.length_strides hwalk⟩, ?_⟩
  have hn : 0 < n := by
    have := hown.itemSize_pos
    have := hpairs.itemSize_eq
    omega
  obtain ⟨rfl, hmax⟩ := elementCount_eq_ok (reserve_eq_ok hm)
  have hhalf : maxElements < half := by decide
  exact Shape.stridesFit_of_pos hn hpos (hmax.trans_lt hhalf)

end Held

/-- **Arithmetic of broadcast datasets is pointwise.** Where there is room, two datasets have a
result just if their shapes and item sizes pair and no integer is divided by zero; in words, just if
the numbers met are words besides, as they are if there are items and all that is read or copied can
be. Each element is the operation on those of the operands, in doubles or in words. -/
theorem binary_pointwise (ha : a.Held s) (hb : b.Held s)
    (hroom : ∀ t, Shape.broadcast a.shape b.shape = .ok t →
      ∃ m, reserve out t (max a.itemSize b.itemSize) = .ok m) :
    ((∃ r s', (binary op out a b).run s = (.ok r, s')) ↔
      ∃ t n, (s.read a).Pairs (s.read b) t n ∧
        Dataset.Defined op out (s.read a) (s.read b) t) ∧
    ((∃ r s', (binaryInWords op out a b).run s = (.ok r, s')) ↔
      ∃ t n, (s.read a).Pairs (s.read b) t n ∧
        Dataset.Defined op out (s.read a) (s.read b) t ∧
        a.PairsInWords b s t ∧ t.stridesFit n = true) ∧
    (∀ r s', (binaryInWords op out a b).run s = (.ok r, s') →
      (binary op out a b).run s = (.ok r, s')) ∧
    (∀ r s', (binary op out a b).run s = (.ok r, s') →
      (r.Held s' ∧ r.kind = out ∧ r.layout = .dense) ∧
      (s.read a).Pairs (s.read b) r.shape r.itemSize ∧
      (r.buffer = s.buffers.size ∧ ∀ id < s.buffers.size, s'.buffer id = s.buffer id) ∧
      ∀ p, r.shape.contains p = true → ∀ k < r.itemSize, ∃ x y v,
        ((s.read a).item (a.shape.project p))[if 1 < a.itemSize then k else 0]? = some x ∧
        ((s.read b).item (b.shape.project p))[if 1 < b.itemSize then k else 0]? = some y ∧
        op.apply (op.inDoubles out a.kind b.kind) out x y = .ok v ∧
        ((s'.read r).item p)[k]? = some v) ∧
    (∀ t n, (s.read a).Pairs (s.read b) t n → 0 < t.size → Word.AllFit a.geometry.walkNumbers →
      Word.AllFit b.geometry.walkNumbers →
      (b.sharesBuffer a = true → b.metadata.CopiesInWords) →
      a.PairsInWords b s t ∧ t.stridesFit n = true) := by
  have hown : (s.read a).Sound := ha.sound
  have hreserve {t : Shape} {n : Nat} (hpairs : (s.read a).Pairs (s.read b) t n) :
      ∃ m, reserve out t n = .ok m := by
    obtain ⟨m, hm⟩ := hroom t hpairs.shape_eq
    exact ⟨m, hpairs.itemSize_eq ▸ hm⟩
  refine ⟨?_, ?_, fun r s' h => ((ha.run_binaryInWords_iff hb).mp h).1, ?_, ?_⟩
  · simp only [ha.run_binary_iff hb]
    constructor
    · rintro ⟨_, _, t, n, hpairs, -, hdefined, -⟩
      exact ⟨t, n, hpairs, hdefined⟩
    · rintro ⟨t, n, hpairs, hdefined⟩
      exact ⟨_, _, t, n, hpairs, hreserve hpairs, hdefined, rfl⟩
  · simp only [ha.run_binaryInWords_iff hb, ha.run_binary_iff hb]
    constructor
    · rintro ⟨_, _, ⟨t, n, hpairs, -, hdefined, hadopt⟩, hwords, hfit⟩
      obtain ⟨rfl, -⟩ := Prod.mk.inj hadopt
      exact ⟨t, n, hpairs, hdefined, hwords, hfit⟩
    · rintro ⟨t, n, hpairs, hdefined, hwords, hfit⟩
      exact ⟨_, _, ⟨t, n, hpairs, hreserve hpairs, hdefined, rfl⟩, hwords, hfit⟩
  · intro r s' hrun
    obtain ⟨t, n, hpairs, ⟨m, hm⟩, hdefined, hadopt⟩ := (ha.run_binary_iff hb).mp hrun
    obtain rfl : r = (s.adopt _).1 := congrArg Prod.fst hadopt
    obtain rfl : s' = (s.adopt _).2 := congrArg Prod.snd hadopt
    obtain ⟨hsound, hitems⟩ := hown.ofItems_pairItem op hpairs hm
    refine ⟨⟨held_adopt hsound s, rfl, rfl⟩, hpairs, ⟨rfl, fun id hid => Store.buffer_push hid _⟩,
      fun p hp k hk => ?_⟩
    rw [Store.read_adopt, hitems p hp]
    exact hown.exists_apply hb.sound hpairs hdefined hp hk
  · intro t n hpairs hpos
    obtain ⟨m, hm⟩ := hreserve hpairs
    exact ha.pairsInWords_of_pos hb hpairs hm hpos

def lastPairs : Handle := { pairHandle with shape := [1, 2], offset := 8 }

theorem binary_pointwise_shared : ∃ (s s' : Store) (a b r : Handle), a.Held s ∧
    a.shape = [3, 2] ∧ b.shape = [1, 2] ∧ b.sharesBuffer a = true ∧
    (binaryInWords .remainder (.int true .w32) a b).run s = (.ok r, s') ∧ r.shape = [3, 2] ∧
    ((s'.read r).item [1, 0])[1]? = some (.int 5) := by
  have ha : pairHandle.Held pairStore := by decide +kernel
  have hbroadcast : Shape.broadcast pairHandle.shape lastPairs.shape = .ok [3, 2] := rfl
  have hpairs : (pairStore.read pairHandle).Pairs (pairStore.read lastPairs) [3, 2] 2 :=
    ⟨hbroadcast, .inl rfl, rfl⟩
  have hdefined : ∀ p ∈ Shape.positions [3, 2], ∀ k < 2,
      ((pairStore.read lastPairs).operand p k).toInt ≠ 0 := by decide
  obtain ⟨-, hsucceeds, hexact, hresult, hwords⟩ :=
    @binary_pointwise _ lastPairs _ .remainder (.int true .w32) ha (by decide +kernel)
      fun t ht => Except.ok.inj (hbroadcast.symm.trans ht) ▸ ⟨12, rfl⟩
  obtain ⟨hfits, hfit⟩ := hwords _ _ hpairs (by decide) (by decide) (by decide)
    fun _ => Metadata.copiesInWords_empty
  obtain ⟨r, s', hrun⟩ := hsucceeds.mpr ⟨_, _, hpairs,
    fun p hp k hk _ _ => hdefined p (Shape.mem_positions.mpr hp) k hk, hfits, hfit⟩
  obtain ⟨-, hpairs', -, helements⟩ := hresult r s' (hexact r s' hrun)
  have hrows : r.shape = [3, 2] := Except.ok.inj (hpairs'.shape_eq.symm.trans hbroadcast)
  obtain ⟨x, y, v, hx, hy, hv, hitem⟩ :=
    helements [1, 0] (by rw [hrows]; rfl) 1 (by rw [hpairs'.itemSize_eq]; decide)
  obtain rfl : Scalar.int 5 = x := Option.some.inj hx
  obtain rfl : Scalar.int 9 = y := Option.some.inj hy
  obtain rfl : Scalar.int 5 = v := Except.ok.inj hv
  exact ⟨_, s', _, lastPairs, r, ha, rfl, rfl, rfl, hrun, hrows, hitem⟩

/-- No rows, which would be long. -/
def longRows : Block := Dataset.ofList (.int true .w32) [0, 4611686018427387904] 1 []

/-- A number for each of four layers. -/
def layers : Block := Dataset.ofList (.int true .w32) [4, 1, 1] 1 ([1, 2, 3, 4].map Scalar.int)

/-- The sum of nothing and of some numbers has no items and strides that are no words. -/
theorem empty_strides_stop_arithmetic : ∃ (s s' : Store) (a b r : Handle), a.Held s ∧ b.Held s ∧
    (∀ t, Shape.broadcast a.shape b.shape = .ok t →
      ∃ m, reserve (.int true .w32) t (max a.itemSize b.itemSize) = .ok m) ∧
    (binary .add (.int true .w32) a b).run s = (.ok r, s') ∧
    r.shape = [4, 0, 4611686018427387904] ∧
    (binaryInWords .add (.int true .w32) a b).run s = (.error (.fault .overflow), s) :=
  ⟨((Store.empty.adopt longRows).2.adopt layers).2, _, (Store.empty.adopt longRows).1,
    ((Store.empty.adopt longRows).2.adopt layers).1, _, by decide +kernel, by decide +kernel,
    fun t ht => by cases ht; exact ⟨0, rfl⟩, rfl, rfl, rfl⟩

end Handle

end Hyperslab
