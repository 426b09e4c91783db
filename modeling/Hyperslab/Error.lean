import Hyperslab.Text.Plain

/-!
# Errors

An `Error` is the cause of a refused operation; `Error.message` is its wording. Failures of a
storage back end are `IoFailure`s. A `Fault` is a request that leaves the range of machine words
or names an axis or an element that is not there: it is not refused by a check but stops the
operation.
-/
namespace Hyperslab

/-- Why two shapes of equal size have no correspondence of axes. -/
inductive RegroupFault where
  | emptyAxes
  | productsDiffer
  | regrouped
  | broadcastAxes
  deriving DecidableEq, Repr

def RegroupFault.reason : RegroupFault → String
  | .emptyAxes => "empty shapes can only gain or lose unit axes"
  | .productsDiffer => "axis products do not line up"
  | .regrouped => "axes are regrouped rather than merged or split"
  | .broadcastAxes => "broadcast axes cannot be merged or split"

/-- Why a selection of items makes no sense. -/
inductive SliceFault where
  | zeroStep
  | arrayRank (entries : List Int) (rank : Nat)
  | tooMany (count rank : Nat)
  | nothingToJoin
  | noIndices
  | noValues
  | unevenSections (length sections : Nat)
  | noAxes
  | noSlices (start stop : Nat)
  deriving DecidableEq, Repr

def SliceFault.reason : SliceFault → String
  | .zeroStep => "step must be nonzero"
  | .arrayRank entries rank =>
      "slice array " ++ Text.ofInts entries ++ " does not match rank " ++ rank.repr
  | .tooMany count rank => count.repr ++ " slices given for rank " ++ rank.repr
  | .nothingToJoin => "no datasets to concatenate"
  | .noIndices => "no indices given"
  | .noValues => "no values to put"
  | .unevenSections length sections =>
      "cannot split length " ++ length.repr ++ " into " ++ sections.repr ++ " equal sections"
  | .noAxes => "no axes to reduce over"
  | .noSlices start stop => "no slices in " ++ start.repr ++ ".." ++ stop.repr ++ " to average"

/-- Why a dataset takes no writes; it carries the dataset's name. -/
inductive WriteRefusal where
  | noSaver (name : String)
  | readOnly (name : String)
  deriving DecidableEq, Repr

def WriteRefusal.reason : WriteRefusal → String
  | .noSaver name => name ++ " has no saver"
  | .readOnly name => "saver of " ++ name ++ " refuses writes"

/-- A request that no check refuses and that cannot be carried out. -/
inductive Fault where
  | overflow
  | missingAxis
  | outsideBuffer
  deriving DecidableEq, Repr

/-- The class of a storage failure. -/
inductive IoKind where
  | notFound
  | permissionDenied
  | invalidInput
  | other
  /-- The storage did not refuse the request but stopped at a fault. -/
  | stopped (fault : Fault)
  deriving DecidableEq, Repr

structure IoFailure where
  kind : IoKind
  text : String
  deriving DecidableEq, Repr

namespace IoFailure

/-- There is nothing to read from. -/
def noLoader : IoFailure := ⟨.notFound, "no loader"⟩

/-- The storage takes no writes. -/
def notWriteable : IoFailure := ⟨.permissionDenied, "saver is not writeable"⟩

def readRefused : IoFailure := ⟨.other, "read refused"⟩

/-- The storage was told to refuse writes. -/
def diskFull : IoFailure := ⟨.other, "disk full"⟩

def stopped (fault : Fault) : IoFailure := ⟨.stopped fault, "stopped"⟩

end IoFailure

/-- The cause of a refused operation. -/
inductive Error where
  | invalidAxis (axis : Int) (rank : Nat)
  | invalidPermutation (axes : List Int) (rank : Nat)
  | incompatibleShapes (a b : List Nat)
  | incompatibleItemSize (a b : Nat)
  | unsupportedReshape (source target : List Nat) (fault : RegroupFault)
  | allocationFailure (shape : List Nat) (itemSize : Nat)
  | ioFailure (context : String) (source : IoFailure)
  | notWritable (refusal : WriteRefusal)
  | outOfBounds (pos shape : List Nat)
  | indexOutOfRange (index : Int) (length : Nat)
  | invalidSlice (fault : SliceFault)
  | divideByZero
  | fault (fault : Fault)
  deriving DecidableEq, Repr

namespace Error

def message : Error → String
  | invalidAxis axis rank =>
      "axis " ++ axis.repr ++ " is out of range for rank " ++ rank.repr
  | invalidPermutation axes rank =>
      "axes " ++ Text.ofInts axes ++ " are not a permutation of 0.." ++ rank.repr
  | incompatibleShapes a b => "incompatible shapes: " ++ Text.ofNats a ++ " and " ++ Text.ofNats b
  | incompatibleItemSize a b => "incompatible item sizes: " ++ a.repr ++ " and " ++ b.repr
  | unsupportedReshape source target cause =>
      "cannot reshape " ++ Text.ofNats source ++ " to " ++ Text.ofNats target ++ ": " ++
        cause.reason
  | allocationFailure shape itemSize =>
      "cannot allocate buffer of shape " ++ Text.ofNats shape ++
        " (item size " ++ itemSize.repr ++ ")"
  | ioFailure context _ => "dataset I/O failure: " ++ context
  | notWritable refusal => "dataset is not writable: " ++ refusal.reason
  | outOfBounds pos shape =>
      "position " ++ Text.ofNats pos ++ " is out of bounds for shape " ++ Text.ofNats shape
  | indexOutOfRange index length =>
      "index " ++ index.repr ++ " is out of range for axis of length " ++ length.repr
  | invalidSlice cause => "invalid slice: " ++ cause.reason
  | divideByZero => "integer division by zero"
  | fault .overflow => "value outside the 64-bit range"
  | fault .missingAxis => "no such axis"
  | fault .outsideBuffer => "no such element"

/-- The storage failure that an error is reported as: the one it wraps, the fault, or one of the
given class. -/
def toIoFailure (kind : IoKind) : Error → IoFailure
  | ioFailure _ source => source
  | fault f => .stopped f
  | e => ⟨kind, e.message⟩

/-- The error that a storage failure is reported as in a context. -/
def ofIoFailure (context : String) (e : IoFailure) : Error :=
  match e.kind with
  | .stopped f => fault f
  | _ => ioFailure context e

end Error

def Fault.check : Option Fault → Except Error Unit
  | some f => .error (.fault f)
  | none => .ok ()

end Hyperslab
