import Hyperslab.Dataset.Arithmetic
import Hyperslab.Proofs.BroadcastOrder
import Hyperslab.Proofs.FieldsFit
import Hyperslab.Proofs.Odometer
import Hyperslab.Proofs.Writes

/-!
# Arithmetic, item by item

The walk of two operands visits the positions of the shape that they are broadcast to, and gathers
there the results of the operation on their items, element by element. An operand is read where the
position is projected to, and one of single elements gives the same element to every element of the
other's items. All results are found before the first one is written.
-/
namespace Hyperslab

open List Shape Word

theorem Shape.alignStrides_self {s : Shape} {ts : Strides} (h : ts.length = s.length) :
    alignStrides s ts s = some ts := by
  induction s generalizing ts with
  | nil =>
    rw [eq_nil_of_length_eq_zero h]
    rfl
  | cons d s ih =>
    obtain ⟨t, ts, rfl⟩ := exists_cons_of_length_eq_add_one h
    simp [alignStrides, @ih ts (by simpa using h)]

/-! ## A view that is repeated -/

namespace Geometry

variable {g : Geometry} {t : Shape}

/-- A view as an operand of a walk. -/
def operand (g : Geometry) : Operand := ⟨Word.signed g.offset, g.strides⟩

/-- The view repeated along the axes of another shape. -/
def stretch (g : Geometry) (t : Shape) : Geometry :=
  { g with
    shape := t
    strides := (Shape.broadcastStrides g.shape g.strides t).toOption.getD [] }

/-- The shape stands for a larger one, with unit axes in front. -/
def Stretches (g : Geometry) (t : Shape) : Prop :=
  g.shape.length ≤ t.length ∧ (g.shape.pad t.length).Fits t

theorem Stretches.size_pos (h : g.Stretches t) (hpos : 0 < t.size) : 0 < g.shape.size := by
  rw [← size_pad g.shape t.length]
  exact Nat.pos_of_ne_zero (mt h.2.size_eq_zero hpos.ne')

section Stretches

variable (h : g.Stretches t) (hlength : g.strides.length = g.shape.length)
include h hlength

theorem Stretches.broadcastStrides_eq :
    broadcastStrides g.shape g.strides t = .ok (g.stretch t).strides := by
  obtain ⟨us, hus⟩ := exists_broadcastStrides h.1 h.2 hlength
  simp only [stretch, hus]
  rfl

/-- A view that is repeated shows its items at the positions that are projected to them. -/
theorem Stretches.shows : (g.stretch t).Shows g g.shape.project := by
  obtain ⟨hstrides, hshow⟩ := broadcastStrides_eq_ok (h.broadcastStrides_eq hlength) hlength
  refine ⟨rfl, hstrides, fun q hq => (hshow q hq).1, fun q hq => ?_⟩
  simp only [place, (hshow q hq).2]
  rfl

theorem Stretches.indexOf_eq {p : Position} (hp : t.contains p) :
    (g.stretch t).indexOf p = g.indexOf (g.shape.project p) := by
  obtain ⟨-, hshow⟩ := broadcastStrides_eq_ok (h.broadcastStrides_eq hlength) hlength
  simp only [indexOf, (hshow p hp).2]
  rfl

end Stretches

theorem stretch_self (hlength : g.strides.length = g.shape.length) : g.stretch g.shape = g := by
  simp [stretch, broadcastStrides, alignStrides_self hlength, Except.toOption]

end Geometry

/-! ## What a walk gathers -/

namespace Odometer

variable {s : Shape} {operands : List Operand}

theorem map_pos_toList_start (s : Shape) (operands : List Operand) :
    (start s operands).toList.map pos = s.positions := by
  have hwalk := congrArg (map Prod.fst) (toList_start s operands)
  rw [map_map, map_map] at hwalk
  exact hwalk.trans (map_id _)

theorem mem_toList_start {o : Odometer} (ho : o ∈ (start s operands).toList) :
    s.contains o.pos ∧ o.current =
      indicesAt (operands.map Operand.start) (operands.map Operand.strides) o.pos := by
  have hmem := mem_map_of_mem (f := fun v : Odometer => (v.pos, v.current)) ho
  rw [toList_start] at hmem
  obtain ⟨p, hp, heq⟩ := mem_map.mp hmem
  obtain ⟨rfl, hcurrent⟩ := Prod.mk.inj heq
  exact ⟨mem_positions.mp hp, hcurrent.symm⟩

end Odometer

namespace BroadcastWalk

variable {α : Type} {f : BroadcastWalk → Except Error (List α)} {w : BroadcastWalk}

/-- What the next `n` visits give is put behind what is there, visit by visit. -/
theorem collectFrom_eq_ok_iff {n : Nat} {found out : Array α} :
    collectFrom f n w found = .ok out ↔ ∃ parts,
      (w.odometer.visits n).mapM (fun o => f { w with odometer := o }) = .ok parts ∧
        out = found ++ parts.flatten := by
  have hnone (found : Array α) : (.ok found : Except Error _) = .ok out ↔ ∃ parts : List (List α),
      (pure [] : Except Error _) = .ok parts ∧ out = found ++ parts.flatten := by
    rw [eq_comm]
    simp
  induction n generalizing w found with
  | zero => exact hnone found
  | succ n ih =>
    have hnext : w.next? = w.odometer.next?.map fun o => { w with odometer := o } := rfl
    rw [collectFrom, Odometer.visits, hnext]
    cases w.odometer.next? with
    | none => exact hnone found
    | some o =>
      have hflatten (part : List α) (parts : List (List α)) :
          found ++ (part :: parts).flatten = found ++ part ++ parts.flatten := by
        apply Array.ext'
        simp
      simp only [Option.map_some, bind_eq_ok, mapM_cons, pure_eq_ok, ih]
      constructor
      · rintro ⟨part, hpart, parts, hparts, rfl⟩
        exact ⟨_, ⟨part, hpart, parts, hparts, rfl⟩, (hflatten part parts).symm⟩
      · rintro ⟨_, ⟨part, hpart, parts, hparts, rfl⟩, rfl⟩
        exact ⟨part, hpart, parts, hparts, hflatten part parts⟩

theorem collect_eq_ok_iff {out : List α} : w.collect f = .ok out ↔ ∃ parts,
    w.odometer.toList.mapM (fun o => f { w with odometer := o }) = .ok parts ∧
      out = parts.flatten := by
  simp only [collect, bind_eq_ok, pure_eq_ok, collectFrom_eq_ok_iff]
  constructor
  · rintro ⟨_, ⟨parts, hparts, rfl⟩, rfl⟩
    exact ⟨parts, hparts, by simp⟩
  · rintro ⟨parts, hparts, rfl⟩
    exact ⟨_, ⟨parts, hparts, rfl⟩, by simp⟩

variable {gs : List Geometry} {t : Shape}

theorem mapM_operand (hgs : ∀ g ∈ gs, g.Stretches t ∧ g.strides.length = g.shape.length) :
    (gs.mapM fun g => do
      return (⟨signed g.offset, ← broadcastStrides g.shape g.strides t⟩ : Operand)) =
    (.ok (gs.map fun g => (g.stretch t).operand) : Except Error _) := by
  refine (mapM_eq_ok_iff_map fun g hg o => ?_).mpr ⟨fun _ _ => trivial, rfl⟩
  rw [(hgs g hg).1.broadcastStrides_eq (hgs g hg).2, ok_bind, pure_eq_ok, true_and, eq_comm]
  rfl

theorem stretches_of_broadcastAll (h : broadcastAll (gs.map Geometry.shape) = .ok t) :
    ∀ g ∈ gs, g.Stretches t := fun _ hg =>
  (fits_pad_iff.mpr ((broadcastAll_eq_ok_iff.mp h).bounds _ (mem_map_of_mem hg))).symm

/-- Operands are walked over the shape that they broadcast to. -/
theorem start_eq_ok_iff {isDouble : Bool} {output : Option (Geometry × Bool)}
    (hgs : ∀ g ∈ gs, g.strides.length = g.shape.length) :
    start gs isDouble output = .ok w ↔ ∃ t n o, broadcastAll (gs.map Geometry.shape) = .ok t ∧
      commonItemSize (gs.map Geometry.itemSize) = .ok n ∧
      outputOperand t n (output.map Prod.fst) = .ok o ∧
      w = ⟨t, n, (output.map Prod.snd).getD false, isDouble,
        Odometer.start t ((gs.map fun g => (g.stretch t).operand) ++ [o])⟩ := by
  simp only [start, bind_eq_ok, pure_eq_ok]
  constructor
  · rintro ⟨t, ht, n, hn, ins, hins, o, ho, rfl⟩
    rw [mapM_operand fun g hg => ⟨stretches_of_broadcastAll ht g hg, hgs g hg⟩] at hins
    cases hins
    exact ⟨t, n, o, ht, hn, ho, rfl⟩
  · rintro ⟨t, n, o, ht, hn, ho, rfl⟩
    exact ⟨t, ht, n, hn, _,
      mapM_operand fun g hg => ⟨stretches_of_broadcastAll ht g hg, hgs g hg⟩, o, ho, rfl⟩

end BroadcastWalk

/-- A walk of operands with a stride for every axis is stopped by its size only. -/
theorem Odometer.fault?_start {gs : List Geometry} {t : Shape}
    (hgs : ∀ g ∈ gs, g.strides.length = t.length) :
    (start t (gs.map Geometry.operand)).fault? =
      if t.sizeChecked.isNone then some .overflow else none := by
  have hstrides : (start t (gs.map Geometry.operand)).strides.any (·.length < t.length) = false := by
    refine any_eq_false.mpr fun ts hts => ?_
    obtain ⟨o, ho, rfl⟩ := mem_map.mp hts
    obtain ⟨g, hg, rfl⟩ := mem_map.mp ho
    simp [Geometry.operand, hgs g hg]
  have hshape : (start t (gs.map Geometry.operand)).shape = t := rfl
  simp only [fault?, hshape, hstrides, Bool.false_eq_true, and_false, if_false]

/-! ## Scalars -/

namespace BinaryOp

variable {op : BinaryOp} {isDouble : Bool} {out : Kind} {x y v : Scalar}

/-- The operation has a result: integers are not divided by zero. -/
def Defined (op : BinaryOp) (isDouble : Bool) (y : Scalar) : Prop :=
  isDouble = false → op = divide ∨ op = remainder → y.toInt ≠ 0

def result (op : BinaryOp) (isDouble : Bool) (out : Kind) (x y : Scalar) : Scalar :=
  (op.apply isDouble out x y).toOption.getD out.zero

theorem exists_onInts_iff {x y : Int} : (∃ v, op.onInts x y = .ok v) ↔
    (op = divide ∨ op = remainder → y ≠ 0) := by
  cases op with
  | divide | remainder => by_cases hy : y = 0 <;> simp [onInts, hy]
  | power => by_cases hy : 0 ≤ y <;> simp [onInts, hy]
  | add | subtract | multiply => simp [onInts]

theorem exists_apply_iff : (∃ v, op.apply isDouble out x y = .ok v) ↔ op.Defined isDouble y := by
  cases isDouble with
  | true => exact iff_of_true ⟨_, rfl⟩ nofun
  | false =>
    have hints : (∃ v, op.apply false out x y = .ok v) ↔
        ∃ v, op.onInts x.toInt y.toInt = .ok v := by
      simp only [apply, Bool.false_eq_true, if_false, bind_eq_ok]
      constructor
      · rintro ⟨_, v, hv, -⟩
        exact ⟨v, hv⟩
      · rintro ⟨v, hv⟩
        exact ⟨_, v, hv, rfl⟩
    rw [hints, exists_onInts_iff]
    exact ⟨fun h _ => h, fun h => h rfl⟩

theorem apply_eq_ok_iff : op.apply isDouble out x y = .ok v ↔
    op.Defined isDouble y ∧ v = op.result isDouble out x y := by
  constructor
  · intro h
    refine ⟨exists_apply_iff.mp ⟨v, h⟩, ?_⟩
    rw [result, h]
    rfl
  · rintro ⟨hdefined, rfl⟩
    obtain ⟨u, hu⟩ := exists_apply_iff.mpr hdefined
    rw [result, hu]
    rfl

/-- The operation on two items, element by element, in double precision. -/
def onItems (op : BinaryOp) (out : Kind) (x y : List Scalar) : List Scalar :=
  List.zipWith (fun x y => out.ofFloat (op.onFloats x.toFloat y.toFloat)) x y

/-- An operation runs in doubles if an operand is floating point, or the output is and the result
may have a fraction. -/
def inDoubles (op : BinaryOp) (out a b : Kind) : Bool :=
  a.isFloat || b.isFloat || ((op = divide || op = power) && out.isFloat)

theorem promotes_eq (op : BinaryOp) : op.promotes = (op = divide || op = power) := by
  cases op <;> rfl

end BinaryOp

/-- Values that are put one by one behind each other are put as an item. -/
theorem Elements.putFrom_eq_foldl (e : Elements) (i : Nat) (l : List Scalar) :
    ((l.zipIdx i).map Prod.swap).foldl (fun e p => e.setIfInBounds p.1 p.2) e = e.putFrom i l := by
  induction l generalizing e i with
  | nil => rfl
  | cons v l ih =>
    simp only [zipIdx_cons, map_cons, foldl_cons, Prod.swap_prod_mk, ih, putFrom]

theorem commonItemSize_pair_iff {m n k : Nat} (hm : 0 < m) (hn : 0 < n) :
    commonItemSize [m, n] = .ok k ↔ (m = n ∨ m = 1 ∨ n = 1) ∧ k = max m n := by
  have hmax : max 1 m = m := by omega
  have hfirst : commonItemSize [m, n] =
      if n ≠ 1 ∧ m ≠ 1 ∧ n ≠ m then .error (.incompatibleItemSize m n) else .ok (max m n) := by
    simp only [commonItemSize, foldlM_cons, ne_eq, not_true_eq_false,
      false_and, and_false, if_false, ok_bind, hmax]
    split <;> rfl
  rw [hfirst]
  split
  · exact iff_of_false nofun (by omega)
  · rw [Except.ok.injEq, eq_comm]
    exact (and_iff_right (by omega)).symm

theorem broadcastAll_pair (s t : Shape) : broadcastAll [s, t] = broadcast s t := by
  simp only [broadcastAll, foldlM_cons, broadcast_nil, ok_bind]
  exact bind_pure _

namespace Dataset

variable {k : Nat} {p : Position} {inPlace : Bool} {l : List (Nat × Scalar)}

variable {a b d other e : Block} {op : BinaryOp} {out : Kind} {t : Shape} {n : Nat}
  {w : BroadcastWalk} {g : Geometry}

/-! ## Operands -/

/-- The element `k` that an operand has for a position of the results; one of single elements has
the same for all. -/
def operand (d : Block) (p : Position) (k : Nat) : Scalar :=
  ((d.item (d.shape.project p))[if 1 < d.itemSize then k else 0]?).getD d.kind.zero

/-- Two datasets have results of shape `t` and items of `n` elements. -/
structure Pairs (a b : Block) (t : Shape) (n : Nat) : Prop where
  shape_eq : Shape.broadcast a.shape b.shape = .ok t
  itemSize : a.itemSize = b.itemSize ∨ a.itemSize = 1 ∨ b.itemSize = 1
  itemSize_eq : n = max a.itemSize b.itemSize

/-- The item of results at a position. -/
def pairItem (op : BinaryOp) (out : Kind) (a b : Block) (p : Position) : List Scalar :=
  (List.range (max a.itemSize b.itemSize)).map fun k =>
    op.result (op.inDoubles out a.kind b.kind) out (a.operand p k) (b.operand p k)

/-- The operation has a result for every element of every item. -/
def Defined (op : BinaryOp) (out : Kind) (a b : Block) (t : Shape) : Prop :=
  ∀ p, t.contains p = true → ∀ k < max a.itemSize b.itemSize,
    op.Defined (op.inDoubles out a.kind b.kind) (b.operand p k)

@[simp] theorem length_pairItem (op : BinaryOp) (out : Kind) (a b : Block) (p : Position) :
    (pairItem op out a b p).length = max a.itemSize b.itemSize := by simp [pairItem]

theorem Sound.getElem?_item (h : d.Sound) (p : Position) (hk : d.itemSize = 1 ∨ k < d.itemSize) :
    (d.item (d.shape.project p))[if 1 < d.itemSize then k else 0]? = some (d.operand p k) := by
  have hpos := h.itemSize_pos
  have hplace : (if 1 < d.itemSize then k else 0) < (d.item (d.shape.project p)).length := by
    rw [length_item]
    split <;> omega
  rw [operand, getElem?_eq_getElem hplace, Option.getD_some]

theorem Sound.operandAt_eq (h : d.Sound) (hp : d.shape.contains (d.shape.project p))
    (hk : d.itemSize = 1 ∨ k < d.itemSize) :
    d.operandAt (d.geometry.indexOf (d.shape.project p)) k = .ok (d.operand p k) := by
  have hle : d.geometry.indexOf (d.shape.project p) + d.itemSize ≤ d.buffer.elements.size :=
    h.inside.indexOf_add_le hp
  have hplace : (if 1 < d.itemSize then k else 0) < d.itemSize := by split <;> omega
  have hlt : d.geometry.indexOf (d.shape.project p) + (if 1 < d.itemSize then k else 0) <
      d.buffer.elements.size := by omega
  rw [operandAt, elementAt]
  simp [operand, item, Frame.item, Frame.itemAt, hplace, hlt]

/-- An element of the results is that of the operation on two elements of the operands. -/
theorem Sound.exists_apply (ha : a.Sound) (hb : b.Sound) (hpairs : a.Pairs b t n)
    (hdefined : Defined op out a b t) (hp : t.contains p) (hk : k < n) : ∃ x y v,
      (a.item (a.shape.project p))[if 1 < a.itemSize then k else 0]? = some x ∧
      (b.item (b.shape.project p))[if 1 < b.itemSize then k else 0]? = some y ∧
      op.apply (op.inDoubles out a.kind b.kind) out x y = .ok v ∧
      (pairItem op out a b p)[k]? = some v := by
  have hposA := ha.itemSize_pos
  have hposB := hb.itemSize_pos
  have hitem := hpairs.itemSize
  have hmax : k < max a.itemSize b.itemSize := hpairs.itemSize_eq ▸ hk
  refine ⟨_, _, _, ha.getElem?_item p (show a.itemSize = 1 ∨ k < a.itemSize by omega),
    hb.getElem?_item p (show b.itemSize = 1 ∨ k < b.itemSize by omega),
    BinaryOp.apply_eq_ok_iff.mpr ⟨hdefined p hp k hmax, rfl⟩, ?_⟩
  simp [pairItem, hmax]

theorem Pairs.stretches (h : a.Pairs b t n) : a.geometry.Stretches t ∧ b.geometry.Stretches t :=
  broadcast_eq_ok h.shape_eq

/-! ## The walk -/

theorem pairWalk_eq_ok_iff {output : Option (Geometry × Bool)} (ha : a.Sound) (hb : b.Sound) :
    pairWalk a b output = .ok w ↔ ∃ t n o, a.Pairs b t n ∧
      BroadcastWalk.outputOperand t n (output.map Prod.fst) = .ok o ∧
      w = ⟨t, n, (output.map Prod.snd).getD false, a.kind.isFloat || b.kind.isFloat,
        Odometer.start t [(a.geometry.stretch t).operand, (b.geometry.stretch t).operand, o]⟩ := by
  have hsizes {n : Nat} : commonItemSize [a.geometry.itemSize, b.geometry.itemSize] = .ok n ↔
      (a.itemSize = b.itemSize ∨ a.itemSize = 1 ∨ b.itemSize = 1) ∧
        n = max a.itemSize b.itemSize := commonItemSize_pair_iff ha.itemSize_pos hb.itemSize_pos
  have hlengths : ∀ g ∈ [a.geometry, b.geometry], g.strides.length = g.shape.length := by
    simp only [forall_mem_cons, not_mem_nil, false_implies, implies_true, and_true]
    exact ⟨ha.inside.length_strides, hb.inside.length_strides⟩
  rw [pairWalk, BroadcastWalk.start_eq_ok_iff hlengths]
  simp only [map_cons, map_nil, broadcastAll_pair, hsizes]
  constructor
  · rintro ⟨t, n, o, ht, ⟨hsize, hn⟩, ho, rfl⟩
    exact ⟨t, n, o, ⟨ht, hsize, hn⟩, ho, rfl⟩
  · rintro ⟨t, n, o, hpairs, ho, rfl⟩
    exact ⟨t, n, o, hpairs.shape_eq, ⟨hpairs.itemSize, hpairs.itemSize_eq⟩, ho, rfl⟩

/-- The walk of two operands over the shape of their results, with an output. -/
def pairOf (a b : Block) (t : Shape) (n : Nat) (output : Geometry) (inPlace : Bool) :
    BroadcastWalk where
  shape := t
  itemSize := n
  inPlace := inPlace
  isDouble := a.kind.isFloat || b.kind.isFloat
  odometer := Odometer.start t
    ([a.geometry.stretch t, b.geometry.stretch t, output].map Geometry.operand)

theorem pairWalk_none_iff (ha : a.Sound) (hb : b.Sound) : pairWalk a b none = .ok w ↔
    ∃ t n, a.Pairs b t n ∧ w = pairOf a b t n (.dense t n) false := by
  rw [pairWalk_eq_ok_iff ha hb]
  constructor
  · rintro ⟨t, n, o, hpairs, ho, rfl⟩
    cases ho
    exact ⟨t, n, hpairs, rfl⟩
  · rintro ⟨t, n, hpairs, rfl⟩
    exact ⟨t, n, _, hpairs, rfl, rfl⟩

theorem pairWalk_some_iff (ha : a.Sound) (hb : b.Sound) :
    pairWalk a b (some (g, inPlace)) = .ok w ↔
      a.Pairs b g.shape g.itemSize ∧ w = pairOf a b g.shape g.itemSize g inPlace := by
  rw [pairWalk_eq_ok_iff ha hb]
  constructor
  · rintro ⟨t, n, o, hpairs, ho, rfl⟩
    simp only [Option.map_some, BroadcastWalk.outputOperand] at ho
    split at ho
    · cases ho
    split at ho
    · cases ho
    rename_i ht hn
    obtain rfl := not_not.mp ht
    obtain rfl := not_not.mp hn
    cases ho
    exact ⟨hpairs, rfl⟩
  · rintro ⟨hpairs, rfl⟩
    refine ⟨_, _, g.operand, hpairs, ?_, rfl⟩
    simp [BroadcastWalk.outputOperand, Geometry.operand]

/-! ## The results -/

/-- The results at a position, each with its place. -/
def placed (op : BinaryOp) (out : Kind) (a b : Block) (g : Geometry) (p : Position) :
    List (Nat × Scalar) :=
  ((pairItem op out a b p).zipIdx (g.indexOf p)).map Prod.swap

section

variable (ha : a.Sound) (hb : b.Sound) (hpairs : a.Pairs b t n)
include ha hb hpairs

/-- The results at a position are those of the operation on the elements that the operands have
there. -/
theorem resultsAt_eq_ok_iff (hp : t.contains p) (hsize : w.itemSize = n)
    (hdouble : w.isDouble = op.inDoubles out a.kind b.kind)
    (hindices : w.indices = [(a.geometry.stretch t).indexOf p, (b.geometry.stretch t).indexOf p,
      g.indexOf p]) :
    resultsAt op out a b w = .ok l ↔ (∀ k < max a.itemSize b.itemSize,
        op.Defined (op.inDoubles out a.kind b.kind) (b.operand p k)) ∧
      l = placed op out a b g p := by
  obtain ⟨hstretchA, hstretchB⟩ := hpairs.stretches
  have hitem := hpairs.itemSize
  have hplaced : placed op out a b g p = (List.range (max a.itemSize b.itemSize)).map fun k =>
      (g.indexOf p + k, op.result (op.inDoubles out a.kind b.kind) out (a.operand p k)
        (b.operand p k)) := by
    refine List.ext_getElem (by simp [placed]) fun k hk hk' => ?_
    simp [placed, pairItem]
  have hstep (k : Nat) (hk : k ∈ List.range (max a.itemSize b.itemSize)) (v : Nat × Scalar) :
      (do
        let x ← a.operandAt ((a.geometry.stretch t).indexOf p) k
        let y ← b.operandAt ((b.geometry.stretch t).indexOf p) k
        return (g.indexOf p + k, ← op.apply (op.inDoubles out a.kind b.kind) out x y)) = .ok v ↔
      op.Defined (op.inDoubles out a.kind b.kind) (b.operand p k) ∧
        v = (g.indexOf p + k, op.result (op.inDoubles out a.kind b.kind) out (a.operand p k)
          (b.operand p k)) := by
    have hk : k < max a.itemSize b.itemSize := List.mem_range.mp hk
    have hposA := ha.itemSize_pos
    have hposB := hb.itemSize_pos
    have hx := ha.operandAt_eq ((hstretchA.shows ha.inside.length_strides).contains p hp)
      (show a.itemSize = 1 ∨ k < a.itemSize by omega)
    have hy := hb.operandAt_eq ((hstretchB.shows hb.inside.length_strides).contains p hp)
      (show b.itemSize = 1 ∨ k < b.itemSize by omega)
    rw [hstretchA.indexOf_eq ha.inside.length_strides hp,
      hstretchB.indexOf_eq hb.inside.length_strides hp]
    simp only [bind_eq_ok, pure_eq_ok, BinaryOp.apply_eq_ok_iff]
    constructor
    · rintro ⟨x, hx', y, hy', _, ⟨hdefined, rfl⟩, rfl⟩
      cases hx.symm.trans hx'
      cases hy.symm.trans hy'
      exact ⟨hdefined, rfl⟩
    · rintro ⟨hdefined, rfl⟩
      exact ⟨_, hx, _, hy, _, ⟨hdefined, rfl⟩, rfl⟩
  rw [resultsAt, hindices, hsize, hdouble, hpairs.itemSize_eq, hplaced]
  simp only [mapM_eq_ok_iff_map hstep, List.mem_range]

/-- The checks before a walk are those that a buffer for the results would have to pass. -/
theorem checks_pairOf_iff (hlength : g.strides.length = t.length) :
    (pairOf a b t n g inPlace).odometer.fault? = none ∧
      listFault? 16 (t.size * n) = none ↔ ∃ m, elementCount t n = .ok m := by
  have hfault : (pairOf a b t n g inPlace).odometer.fault? =
      if t.sizeChecked.isNone then some .overflow else none := by
    refine Odometer.fault?_start ?_
    simp only [forall_mem_cons, not_mem_nil, false_implies, implies_true, and_true]
    exact ⟨(hpairs.stretches.1.shows ha.inside.length_strides).length_strides,
      (hpairs.stretches.2.shows hb.inside.length_strides).length_strides, hlength⟩
  have hmax : maxElements = (half - 1) / 16 := rfl
  have hhalf : 0 < half := by decide
  rw [hfault, listFault?]
  simp only [elementCount_eq_ok_iff]
  cases hc : t.sizeChecked with
  | none => simp
  | some c =>
    obtain rfl : t.size = c := size_of_sizeChecked hc
    have hiff : 16 * (t.size * n) < half ↔ t.size * n ≤ maxElements := by omega
    simp [← hiff]

/-- The walk gathers the results of all positions, if there are such. -/
theorem collect_pairOf_iff :
    ((pairOf a b t n g inPlace).forceDouble (op.promotes && out.isFloat)).collect
        (resultsAt op out a b) = .ok l ↔
      Defined op out a b t ∧ l = (t.positions.map (placed op out a b g)).flatten := by
  have hvisit (o : Odometer) (ho : o ∈ (pairOf a b t n g inPlace).odometer.toList)
      (part : List (Nat × Scalar)) : resultsAt op out a b
        { (pairOf a b t n g inPlace).forceDouble (op.promotes && out.isFloat) with
          odometer := o } = .ok part ↔
      (∀ k < max a.itemSize b.itemSize,
        op.Defined (op.inDoubles out a.kind b.kind) (b.operand o.pos k)) ∧
      part = placed op out a b g o.pos := by
    obtain ⟨hp, hcurrent⟩ := Odometer.mem_toList_start ho
    refine resultsAt_eq_ok_iff ha hb hpairs hp rfl ?_ ?_
    · rw [BinaryOp.inDoubles, ← BinaryOp.promotes_eq]
      rfl
    simp only [BroadcastWalk.indices, hcurrent]
    rfl
  have hpositions : (pairOf a b t n g inPlace).odometer.toList.map Odometer.pos = t.positions :=
    Odometer.map_pos_toList_start ..
  have hparts : (pairOf a b t n g inPlace).odometer.toList.map
      (fun o => placed op out a b g o.pos) = t.positions.map (placed op out a b g) := by
    rw [← hpositions, map_map]
    rfl
  have hdefined : Defined op out a b t ↔ ∀ o ∈ (pairOf a b t n g inPlace).odometer.toList,
      ∀ k < max a.itemSize b.itemSize,
        op.Defined (op.inDoubles out a.kind b.kind) (b.operand o.pos k) := by
    simp only [Defined, ← mem_positions, ← hpositions, forall_mem_map]
  rw [BroadcastWalk.collect_eq_ok_iff, hdefined, ← hparts]
  constructor
  · rintro ⟨parts, hmap, rfl⟩
    obtain ⟨hall, rfl⟩ := (mapM_eq_ok_iff_map hvisit).mp hmap
    exact ⟨hall, rfl⟩
  · rintro ⟨hall, rfl⟩
    exact ⟨_, (mapM_eq_ok_iff_map hvisit).mpr ⟨hall, rfl⟩, rfl⟩

/-- **The results at all positions**, each with its place in the output. -/
theorem evaluate_eq_ok_iff (hlength : g.strides.length = t.length) :
    evaluate op out a b (pairOf a b t n g inPlace) = .ok l ↔
      (∃ m, elementCount t n = .ok m) ∧ Defined op out a b t ∧
        l = (t.positions.map (placed op out a b g)).flatten := by
  rw [← checks_pairOf_iff ha hb hpairs hlength, ← collect_pairOf_iff ha hb hpairs]
  simp only [evaluate, bind_eq_ok, check_eq_ok]
  constructor
  · rintro ⟨-, hfault, -, hlist, hcollect⟩
    exact ⟨⟨hfault, hlist⟩, hcollect⟩
  · rintro ⟨⟨hfault, hlist⟩, hcollect⟩
    exact ⟨(), hfault, (), hlist, hcollect⟩

end

/-! ## A dataset of results -/

theorem map_snd_placed (op : BinaryOp) (out : Kind) (a b : Block) (g : Geometry) (p : Position) :
    (placed op out a b g p).map Prod.snd = pairItem op out a b p := by
  rw [placed, map_map]
  exact zipIdx_map_fst ..

theorem Sound.ofItems_pairItem {m : Nat} (ha : a.Sound) (op : BinaryOp) (hpairs : a.Pairs b t n)
    (hm : reserve out t n = .ok m) : (ofItems out "" t n (pairItem op out a b)).Sound ∧
      ∀ p, t.contains p →
        (ofItems out "" t n (pairItem op out a b)).item p = pairItem op out a b p := by
  have hn : 0 < n := by
    have := ha.itemSize_pos
    have := hpairs.itemSize_eq
    omega
  have hlength (p : Position) (_ : t.contains p) : (pairItem op out a b p).length = n := by
    rw [length_pairItem, hpairs.itemSize_eq]
  obtain ⟨rfl, hmax⟩ := elementCount_eq_ok (reserve_eq_ok hm)
  exact ⟨sound_ofItems hn hlength (bytes_mul_lt hmax),
    fun p hp => item_ofItems hn hlength (bytes_mul_lt hmax) hp⟩

/-- **Arithmetic is the operation at each position,** if the operands pair, there is room for the
results, and no integer is divided by zero. -/
theorem Sound.binary_eq_ok_iff (ha : a.Sound) (hb : b.Sound) : binary op out a b = .ok d ↔
    ∃ t n, a.Pairs b t n ∧ (∃ m, reserve out t n = .ok m) ∧ Defined op out a b t ∧
      d = ofItems out "" t n (pairItem op out a b) := by
  have hmake {t : Shape} {n m : Nat} (hpairs : a.Pairs b t n) (hm : reserve out t n = .ok m) :
      ofElements out n t ((t.positions.map (placed op out a b (.dense t n))).flatten.map Prod.snd) =
        .ok (ofItems out "" t n (pairItem op out a b)) := by
    have hpos := ha.itemSize_pos
    have hsize := hpairs.itemSize_eq
    rw [map_flatten, map_map]
    simp only [Function.comp_def, map_snd_placed]
    exact ofElements_positions (by omega) (fun p _ => by rw [length_pairItem, hsize])
      (reserve_eq_ok hm)
  have hlength (t : Shape) (n : Nat) : (Geometry.dense t n).strides.length = t.length :=
    length_strides ..
  simp only [binary, bind_eq_ok, pairWalk_none_iff ha hb]
  constructor
  · rintro ⟨_, ⟨t, n, hpairs, rfl⟩, l, hl, m, hm, hd⟩
    obtain ⟨-, hdefined, rfl⟩ := (evaluate_eq_ok_iff ha hb hpairs (hlength t n)).mp hl
    cases (hmake hpairs hm).symm.trans hd
    exact ⟨t, n, hpairs, ⟨m, hm⟩, hdefined, rfl⟩
  · rintro ⟨t, n, hpairs, ⟨m, hm⟩, hdefined, rfl⟩
    exact ⟨_, ⟨t, n, hpairs, rfl⟩, _, (evaluate_eq_ok_iff ha hb hpairs (hlength t n)).mpr
      ⟨⟨m, reserve_eq_ok hm⟩, hdefined, rfl⟩, m, hm, hmake hpairs hm⟩

/-! ## Results in place -/

/-- **Arithmetic in place is the operation at each position,** written at the places of the items.
-/
theorem Sound.applyInPlace_eq_ok_iff (hd : d.Sound) (ho : other.Sound) :
    applyInPlace op d other = .ok e ↔ d.Pairs other d.shape d.itemSize ∧
      (∃ m, elementCount d.shape d.itemSize = .ok m) ∧ Defined op d.kind d other d.shape ∧
      e = d.modifyElements (·.putItems (d.shape.positions.map fun p =>
        (d.geometry.indexOf p, pairItem op d.kind d other p))) := by
  have hput (p : Position) (e : Elements) :
      (placed op d.kind d other d.geometry p).foldl (fun e p => e.setIfInBounds p.1 p.2) e =
        e.putFrom (d.geometry.indexOf p) (pairItem op d.kind d other p) :=
    Elements.putFrom_eq_foldl ..
  have hfold : (fun e : Elements => (d.shape.positions.map (placed op d.kind d other
      d.geometry)).flatten.foldl (fun e p => e.setIfInBounds p.1 p.2) e) =
        (·.putItems (d.shape.positions.map fun p =>
          (d.geometry.indexOf p, pairItem op d.kind d other p))) := by
    funext e
    rw [foldl_flatten, foldl_map, Elements.putItems, foldl_map]
    simp only [hput]
  have hlength : d.geometry.strides.length = d.shape.length := hd.inside.length_strides
  simp only [applyInPlace, bind_eq_ok, pure_eq_ok, pairWalk_some_iff hd ho, ← hfold]
  constructor
  · rintro ⟨_, ⟨hpairs, rfl⟩, l, hl, rfl⟩
    obtain ⟨hcount, hdefined, rfl⟩ := (evaluate_eq_ok_iff hd ho hpairs hlength).mp hl
    exact ⟨hpairs, hcount, hdefined, rfl⟩
  · rintro ⟨hpairs, hcount, hdefined, rfl⟩
    exact ⟨_, ⟨hpairs, rfl⟩, _, (evaluate_eq_ok_iff hd ho hpairs hlength).mpr
      ⟨hcount, hdefined, rfl⟩, rfl⟩

theorem pairItem_eq_onItems (hfloat : d.kind.isFloat) (hitem : other.itemSize = d.itemSize)
    (hp : d.shape.contains p) : pairItem op d.kind d other p =
      op.onItems d.kind (d.item p) (other.item (other.shape.project p)) := by
  have hdouble : op.inDoubles d.kind d.kind other.kind := by
    simp [BinaryOp.inDoubles, hfloat]
  refine List.ext_getElem (by simp [BinaryOp.onItems, hitem]) fun k hk hk' => ?_
  have hk : k < d.itemSize := by simpa [hitem] using hk
  have hone : (if 1 < d.itemSize then k else 0) = k := by split <;> omega
  have hx : d.operand p k = (d.item p).get ⟨k, by simpa using hk⟩ := by
    simp [operand, project_self hp, hone, hk]
  have hy : other.operand p k = (other.item (other.shape.project p)).get
      ⟨k, by simpa [hitem] using hk⟩ := by
    simp [operand, hitem, hone, hk]
  simp [pairItem, hdouble, hx, hy, BinaryOp.result, BinaryOp.apply, BinaryOp.onItems,
    Except.toOption]

/-- **Arithmetic in place is the operation on the items at each position,** when it runs in doubles
and the other operand fits the first one item by item. -/
theorem Sound.applyInPlace_eq_ok {m : Nat} (hd : d.Sound) (op : BinaryOp) (ho : other.Sound)
    (hsep : d.geometry.Separate) (hfloat : d.kind.isFloat) (hfits : other.shape.Fits d.shape)
    (hitem : other.itemSize = d.itemSize) (hreserve : reserve d.kind d.shape d.itemSize = .ok m) :
    ∃ e, applyInPlace op d other = .ok e ∧ e.toFrame = d.toFrame ∧ e.Sound ∧
      e.metadata = d.metadata.onDirty ∧ ∀ p, d.shape.contains p →
        e.item p = op.onItems d.kind (d.item p) (other.item (other.shape.project p)) := by
  have hlength : other.shape.length = d.shape.length := hfits.length_eq
  have hpairs : d.Pairs other d.shape d.itemSize := by
    refine ⟨?_, .inl hitem.symm, by rw [hitem, max_self]⟩
    simp [broadcast, hlength, pad, joinAxes_comm d.shape, hfits.joinAxes_eq]
  have hdefined : Defined op d.kind d other d.shape := by
    intro p hp k hk hints
    simp [BinaryOp.inDoubles, hfloat] at hints
  have hlengths (p : Position) (_ : d.shape.contains p) :
      (pairItem op d.kind d other p).length = d.itemSize := by
    rw [length_pairItem, hitem, max_self]
  obtain ⟨hframe, hsound, hmeta, hitems⟩ := hd.put_all hsep hlengths rfl
  have hresult := (hd.applyInPlace_eq_ok_iff ho).mpr
    ⟨hpairs, ⟨m, reserve_eq_ok hreserve⟩, hdefined, rfl⟩
  refine ⟨_, hresult, hframe, hsound, hmeta, fun p hp => ?_⟩
  rw [hitems p hp]
  exact pairItem_eq_onItems hfloat hitem hp

end Dataset

end Hyperslab
