import Hyperslab.Dataset.Arrange

/-!
# Datasets in words

Regions, frames and walks are computed over exact integers. The operations of this module give the
same results, but stop when a number on the way is not a signed word. Every one of them names the
numbers that it meets.

Most numbers are met because an item lies there. Those that can leave the words are the steps and
strides of unit axes, which lead nowhere; the ends of axes, which a walk goes one step beyond before
it turns; and the strides of data without items.
-/
namespace Hyperslab

namespace Word

/-- Stops unless all numbers are signed words. -/
def check (numbers : List Int) : Except Error Unit :=
  if numbers.all fits then .ok () else .error (.fault .overflow)

/-- The sums that adding up a list goes through, from `sum` on. -/
def sums (sum : Int) : List Int → List Int
  | [] => []
  | z :: zs => (sum + z) :: sums (sum + z) zs

end Word

/-! ## Regions -/

def Span.composeNumbers (outer inner : Span) : List Int :=
  let moved := inner.start * outer.step
  let step := outer.step * inner.step
  let run := Word.signed inner.count * step
  [moved, outer.start + moved, step, run, outer.start + moved + run]

def Region.composeInWords (outer inner : Region) : Except Error Region := do
  let r ← outer.compose inner
  Word.check (List.zipWith Span.composeNumbers outer.spans inner.spans).flatten
  return r

namespace Geometry

/-- The numbers met in slicing: those on the way to the first item of the region, if it has one, and
the strides. -/
def sliceNumbers (g : Geometry) (r : Region) : List Int :=
  let moves := List.zipWith (· * ·) r.starts g.strides
  let way := moves ++ Word.sums 0 moves ++ [Word.signed g.offset + moves.foldr (· + ·) 0]
  (if r.size = 0 then [] else way) ++ (g.slice r).strides

def sliceInWords (g : Geometry) (r : Region) : Except Error Geometry := do
  let _ ← r.shape.sizeWord
  Word.check (g.sliceNumbers r)
  return g.slice r

end Geometry

/-! ## Walks -/

namespace Odometer

/-- The numbers met in moving on. A length above the signed words would be read as a negative one,
so these are the numbers for shorter axes. -/
def advanceNumbers (shape : Shape) (strides : List Strides) :
    (axes : Nat) → Position → List Int → List Int
  | 0, _, _ => []
  | j + 1, pos, offsets =>
      let d := (shape[j]?).getD 0
      let ahead := shift strides j 1 offsets
      if (pos[j]?).getD 0 + 1 < d then ahead
      else
        let back := shift strides j (-d) ahead
        ahead ++ strides.map (fun ts => (d : Int) * (ts[j]?).getD 0) ++ back ++
          advanceNumbers shape strides j (pos.set j 0) back

def nextNumbers (o : Odometer) : List Int :=
  o.upcoming.elim [] fun pos => advanceNumbers o.shape o.strides o.shape.length pos o.offsets

/-- The next `n` visits, or all that are left, in words. -/
def visitsInWords : Nat → Odometer → Except Error (List Odometer)
  | 0, _ => .ok []
  | n + 1, o => do
      Word.check o.nextNumbers
      match o.next? with
      | none => return []
      | some o => return o :: (← visitsInWords n o)

def toListInWords (o : Odometer) : Except Error (List Odometer) := o.visitsInWords o.remaining

/-- How far the next `n` visits get: up to the first one that meets a number that is no word, or
whose index fails a test. -/
def reachInWords (test : Nat → Bool) : Nat → Odometer → Geometry.Reach
  | 0, _ => ⟨[], none, none⟩
  | n + 1, o =>
      if o.nextNumbers.all Word.fits then
        match o.next? with
        | none => ⟨[], none, none⟩
        | some o =>
            let i := o.index 0
            if test i then
              let rest := reachInWords test n o
              { rest with indices := i :: rest.indices }
            else ⟨[], some i, some .outsideBuffer⟩
      else ⟨[], none, some .overflow⟩

end Odometer

namespace Geometry

/-- The numbers at which walks of axes turn, where the axes before them lead to indices from `low`
to `high`. -/
def turns (low high : Int) : Shape → Strides → List Int
  | d :: s, t :: ts =>
      let turn := d * t
      let last := turn - t
      [turn, low + min 0 turn, high + max 0 turn] ++
        turns (low + min 0 last) (high + max 0 last) s ts
  | _, _ => []

/-- The extreme numbers among those met in a walk of all items. -/
def walkNumbers (g : Geometry) : List Int :=
  let first := Word.signed g.offset
  if g.shape.size = 0 then [] else turns first first g.shape g.strides

def reachInWords (g : Geometry) (length : Nat) : Reach :=
  let w := g.walk
  match w.fault? with
  | some fault => ⟨[], none, some fault⟩
  | none => w.reachInWords (fun i => i + g.itemSize ≤ length) w.remaining

end Geometry

namespace RegionWalk

def startInWords (g : Geometry) (r : Region) : Except Error RegionWalk := do
  let w ← start g r
  let _ ← g.sliceInWords r
  return w

def toListInWords (w : RegionWalk) : Except Error (List RegionWalk) := do
  return (← w.odometer.toListInWords).map fun o => { w with odometer := o }

end RegionWalk

namespace SubregionWalk

def subregionInWords (w : SubregionWalk) : Except Error Region := do
  let slices ← (PositionWalk.slicesAt w.positions.held w.positions.pos).mapM Slice.checked
  w.region.composeInWords (← Region.ofSlices w.region.shape slices)

/-- `visits` in words. A sub-region that is refused ends the walk, and a number that is no word
stops it. -/
def visitsInWords : Nat → SubregionWalk → Except Error (List (Region × SubregionWalk))
  | 0, _ => return []
  | n + 1, w => do
      match w.positions.next? with
      | none => return []
      | some positions =>
          let w := { w with positions }
          match w.subregionInWords with
          | .ok r => return (r, w) :: (← visitsInWords n w)
          | .error (.fault f) => throw (.fault f)
          | .error _ => return []

def toListInWords (w : SubregionWalk) : Except Error (List (Region × SubregionWalk)) :=
  w.visitsInWords w.positions.odometer.remaining

end SubregionWalk

namespace BroadcastWalk

def collectFromInWords {α : Type} (f : BroadcastWalk → Except Error (List α)) :
    (n : Nat) → BroadcastWalk → Array α → Except Error (Array α)
  | 0, _, found => .ok found
  | n + 1, w, found => do
      Word.check w.odometer.nextNumbers
      match w.next? with
      | none => return found
      | some w => collectFromInWords f n w (found ++ (← f w))

def collectInWords {α : Type} (w : BroadcastWalk) (f : BroadcastWalk → Except Error (List α)) :
    Except Error (List α) := do
  return (← collectFromInWords f w.odometer.remaining w #[]).toList

end BroadcastWalk

/-! ## Frames -/

namespace Frame

/-- `strides` in words: those of a dense layout are computed. -/
def stridesInWords (f : Frame) : Except Error Strides :=
  match f.layout with
  | .dense => f.shape.stridesChecked f.itemSize
  | .strided strides => .ok strides

/-- `geometry` in words, for a region of the frame. -/
def regionInWords (f : Frame) (r : Region) : Except Error Geometry := do
  f.checkRegion r
  let _ ← f.stridesInWords
  f.geometry.sliceInWords r

/-- `slice` in words. The strides are compared with those of a dense layout. -/
def sliceInWords (f : Frame) (r : Region) : Except Error Frame := do
  let g ← f.regionInWords r
  let _ ← g.shape.stridesChecked g.itemSize
  f.slice r

/-- Stops where another order of axes leads out of the words. The strides are compared with those of
a dense layout. -/
def checkPermuted (f : Frame) (perm : List Nat) : Except Error Unit := do
  let _ ← f.stridesInWords
  let _ ← Shape.stridesChecked f.itemSize (Permutation.apply perm f.shape)

/-- Stops where a walk of all items leaves the words. -/
def checkWalk (f : Frame) : Except Error Unit := do
  let _ ← f.stridesInWords
  Word.check f.geometry.walkNumbers

/-- Stops where another shape leads out of the words: in its strides if it is a view, and in the
walk of all items if they are copied. -/
def checkReshape (f : Frame) (s : Shape) : Except Error Unit := do
  let map ← Regrouping.of f.shape s
  if (f.regrouped? map).isSome then
    let _ ← s.stridesChecked f.itemSize
  else f.checkWalk

/-- `broadcast` in words. The strides are compared with those of a dense layout. -/
def broadcastInWords (f : Frame) (s : Shape) : Except Error Frame := do
  let b ← f.broadcast s
  let _ ← f.stridesInWords
  let _ ← s.stridesChecked f.itemSize
  return b

/-- Stops where copying a region leads out of the words. -/
def checkCopied (f : Frame) (r : Region) : Except Error Unit := do
  let g ← f.regionInWords r
  let _ ← reserve f.kind r.shape f.itemSize
  Word.check g.walkNumbers

end Frame

/-! ## Metadata

What is attached to a dataset is copied first, field by field, and then the packed copies follow. -/

namespace Metadata

def fields (m : Metadata) : List Field :=
  m.errors ++ m.axes.flatMap (·.axes.flatten) ++ m.auxiliary.flatMap (·.entries.map Prod.snd)

/-- Stops where copying what is attached leads out of the words. -/
def checkCopy (m : Metadata) : Except Error Unit := m.fields.forM (·.checkWalk)

/-- Stops where what is attached, or one of the copies that follow, leads out of the words. -/
def checkFollowing (m : Metadata) (check : Field → Except Error Unit) : Except Error Unit := do
  m.checkCopy
  m.copy.fields.forM check

def checkSlice (m : Metadata) (r : Region) (asView : Bool) : Except Error Unit :=
  m.checkFollowing fun f => do
    let own ← Region.ofSlices f.shape (← f.followSlices r)
    if asView then
      let _ ← f.toFrame.sliceInWords own
    else f.checkCopied own

/-- The values of axes that are merged or split stay behind. -/
def checkReshape (m : Metadata) (map : Regrouping) : Except Error Unit := do
  let check (f : Field) : Except Error Unit := do f.checkReshape (← map.reshapeShape f.shape)
  m.checkCopy
  m.copy.errors.forM check
  m.copy.axes.forM fun a => do
    (← map.remapAxes (a.axes.map some)).forM fun fields => (fields.getD []).forM check
  m.copy.auxiliary.forM fun a => a.entries.forM fun e => check e.2

def checkTranspose (m : Metadata) (perm : List Nat) : Except Error Unit :=
  if Permutation.isIdentity perm then m.checkCopy
  else m.checkFollowing (·.checkPermuted perm)

end Metadata

/-! ## Datasets -/

namespace Dataset

def sliceViewInWords {β : Type} (d : Dataset β) (r : Region) : Except Error (Dataset β) := do
  let _ ← d.toFrame.sliceInWords r
  d.metadata.checkSlice r true
  d.sliceView r

def viewInWords {β : Type} (d : Dataset β) : Except Error (Dataset β) := do
  d.checkPermuted (List.range d.rank)
  d.metadata.checkCopy
  return d.view

def transposedInWords {β : Type} (d : Dataset β) (axes : List Int) : Except Error (Dataset β) := do
  let perm ← Permutation.ofAxes d.rank axes
  d.checkPermuted perm
  d.metadata.checkTranspose perm
  d.transposed axes

def swapAxesInWords {β : Type} (d : Dataset β) (a b : Int) : Except Error (Dataset β) := do
  d.transposedInWords (← d.swapping a b)

def rollAxisInWords {β : Type} (d : Dataset β) (axis start : Int) : Except Error (Dataset β) := do
  d.transposedInWords (← d.rolling axis start)

def flipInWords {β : Type} (d : Dataset β) (axis : Int) : Except Error (Dataset β) := do
  d.sliceViewInWords (← (Region.full d.shape).flip axis)

def flipLeftRightInWords {β : Type} (d : Dataset β) : Except Error (Dataset β) := do
  d.checkPlane
  d.flipInWords 1

def flipUpDownInWords {β : Type} (d : Dataset β) : Except Error (Dataset β) := d.flipInWords 0

def rot90InWords {β : Type} (d : Dataset β) (k : Int) : Except Error (Dataset β) := do
  d.checkPlane
  match (k % 4).toNat with
  | 0 => d.viewInWords
  | 1 => (← d.swapAxesInWords 0 1).flipInWords 0
  | 2 => (← d.flipInWords 0).flipInWords 1
  | _ => (← d.swapAxesInWords 0 1).flipInWords 1

def sliceInWords (d : Block) (r : Region) : Except Error Block := do
  d.checkCopied r
  d.metadata.checkSlice r false
  d.slice r

def toListInWords (d : Block) : Except Error (List Scalar) := do
  d.checkWalk
  d.checkRead
  return d.toList

/-- Stops where a fold along an axis leads out of the words: in moving the axis to the end, in
reading all items, or in counting those of the result. -/
def checkFold (d : Block) (axis : Int) : Except Error Unit := do
  let a ← Shape.normalizeAxis axis d.rank
  let moved ← d.rollAxisInWords a d.rank
  let _ ← moved.shape.sizeWord
  moved.checkWalk
  let _ ← Shape.sizeWord (d.shape.eraseIdx a)

def foldAxisInWords (d : Block) (axis : Int) (init : Float) (f : Float → Float → Float) :
    Except Error Block := do
  d.checkFold axis
  d.foldAxis axis init f

/-- Stops where another shape of the dataset leads out of the words. -/
def checkRegrouped {β : Type} (d : Dataset β) (s : Shape) : Except Error Unit := do
  d.checkReshape s
  d.metadata.checkReshape (← Regrouping.of d.shape s)

/-- `spread` in words. The strides of a view are compared with those of a dense layout. -/
def spreadInWords (data : Block) (s : Shape) : Except Error Block := do
  if data.shape = s then
    let _ ← s.stridesChecked data.itemSize
    data.metadata.checkCopy
  else if (← data.shape.sizeWord) = (← s.sizeWord) then data.checkRegrouped s
  else
    let _ ← data.toFrame.broadcastInWords s
  data.spread s

def incomingInWords (d : Block) (r : Region) (data : Block) :
    Except Error (List (List Scalar)) := do
  d.checkRegion r
  if data.itemSize ≠ d.itemSize ∧ data.itemSize ≠ 1 then
    .error (.incompatibleItemSize d.itemSize data.itemSize)
  else
    let source ← data.spreadInWords r.shape
    source.checkWalk
    source.checkRead
    return source.itemList.map (fitItem d.kind d.itemSize)

/-- `writeSlice` in words. What was written before the walk stops stays. -/
def writeSliceInWords (d : Block) (r : Region) (data : Block) :
    Except Error (Written Buffer) := do
  let items ← d.incomingInWords r data
  let g ← d.regionInWords r
  let reach := g.reachInWords d.buffer.size
  let opening := if data.itemSize = d.itemSize then [] else openingWrite reach items
  return d.afterWrite (fun e => (e.putItems (reach.indices.zip items)).putItems opening) reach.stop

def setSliceInWords (d : Block) (r : Region) (data : Block) : Except Error Block := do
  (← d.writeSliceInWords r data).finish

def reshapeInWords (d : Block) (s : Shape) : Except Error Block := do
  d.checkRegrouped s
  d.reshape s

def setShapeInWords (d : Block) (s : Shape) : Except Error Block := do
  if s ≠ d.shape then d.checkRegrouped s
  d.setShape s

def flattenInWords (d : Block) : Except Error Block := do d.reshapeInWords [← d.shape.sizeWord]

def copyInWords (d : Block) : Except Error Block := do
  d.checkWalk
  d.checkRead
  d.metadata.checkCopy
  return d.copy

/-- `pairWalk` in words. The strides of a packed output are computed. -/
def pairWalkInWords (a b : Block) (output : Option (Geometry × Bool)) :
    Except Error BroadcastWalk := do
  let _ ← a.stridesInWords
  let _ ← b.stridesInWords
  let w ← pairWalk a b output
  if output.isNone then
    let _ ← w.shape.stridesChecked w.itemSize
  return w

def evaluateInWords (op : BinaryOp) (out : Kind) (a b : Block) (w : BroadcastWalk) :
    Except Error (List (Nat × Scalar)) := do
  Fault.check w.odometer.fault?
  Fault.check (Word.listFault? 16 (w.odometer.remaining * w.itemSize))
  let w := w.forceDouble (op.promotes && out.isFloat)
  w.collectInWords (resultsAt op out a b)

def binaryInWords (op : BinaryOp) (out : Kind) (a b : Block) : Except Error Block := do
  let w ← pairWalkInWords a b none
  let values ← evaluateInWords op out a b w
  let _ ← reserve out w.shape w.itemSize
  ofElements out w.itemSize w.shape (values.map Prod.snd)

end Dataset

end Hyperslab
