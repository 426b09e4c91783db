import Hyperslab.Proofs.BackgroundRuns
import Hyperslab.Proofs.GrownReads

/-!
# Background writes that fail

A dataset over a queue grows when it hands a write over, and storage in memory grows when the write
is carried out. If the storage then has no room, the dataset has grown and the storage has not, and
nothing takes that back: the flush reports the failure, and all that is read afterwards is refused
because of the shapes. As long as every background write goes through, the shapes agree after a
flush. None of this holds of writes that are stopped at a fault, which would end the worker.
-/
namespace Hyperslab

open Dataset List Region

namespace Memory

variable {m m' : Memory} {k : Kind} {n : Nat} {r : Region} {data : Block}

/-- The storage holds sound data of a kind, in items of `n` elements. -/
structure Keeps (m : Memory) (k : Kind) (n : Nat) : Prop where
  sound : m.stored.Sound
  kind_eq : m.stored.kind = k
  itemSize_eq : m.stored.itemSize = n

theorem Keeps.sameForm {d : Block} (h : m.Keeps k n) (hform : m.stored.SameForm d) :
    Keeps { m with stored := d } k n where
  sound := hform.sound h.sound
  kind_eq := (congrArg Frame.kind hform.frame_eq).trans h.kind_eq
  itemSize_eq := (congrArg Frame.itemSize hform.frame_eq).trans h.itemSize_eq

theorem Keeps.prepared (h : m.Keeps k n) (hm : m.prepared r = .ok m') :
    m'.Keeps k n ∧ m'.stored.shape = r.source := by
  rw [Memory.prepared] at hm
  split at hm
  · next hsource =>
    cases hm
    exact ⟨h, hsource.symm⟩
  · split at hm
    · simp only [bind_eq_ok, pure_eq_ok] at hm
      obtain ⟨larger, hlarger, rfl⟩ := hm
      obtain ⟨hshape, hsize⟩ := grown_eq_ok hlarger
      have hkind : larger.kind = m.stored.kind :=
        (congrArg Frame.kind (toFrame_grown hlarger)).trans rfl
      exact ⟨⟨(copyable_grown hlarger).sound, hkind.trans h.kind_eq, hsize.trans h.itemSize_eq⟩,
        hshape⟩
    · cases hm

/-- Whatever comes of a write, the storage holds data of the same kind and item size. -/
theorem Keeps.write (h : m.Keeps k n) (r : Region) (data : Block) :
    (write r data m).2.Keeps k n := by
  unfold Memory.write
  cases hm : m.prepared r with
  | error e => exact h
  | ok p =>
    have hp := (h.prepared hm).1
    dsimp only
    cases hw : p.stored.writeSliceInWords r data with
    | error e => exact hp
    | ok w => exact hp.sameForm (sameForm_writeSliceInWords hw)

theorem Keeps.write_ne_ok (h : m.Keeps k n) (hother : ¬ (data.itemSize = n ∨ data.itemSize = 1)) :
    (Memory.write r data m).1 ≠ .ok () := by
  unfold Memory.write
  cases hp : m.prepared r with
  | error e => exact nofun
  | ok p =>
    dsimp only
    cases hw : p.stored.writeSliceInWords r data with
    | error e => exact nofun
    | ok w =>
      rw [not_or, ← (h.prepared hp).1.itemSize_eq] at hother
      simp only [writeSliceInWords, incomingInWords, bind_eq_ok] at hw
      obtain ⟨items, ⟨_, -, hitems⟩, -⟩ := hw
      rw [if_pos hother] at hitems
      cases hitems

end Memory

namespace Writeable

variable {τ : Type} {w w' : Writeable τ} {m : Memory} {n : Nat} {order : Order}

/-! ## What a write asks for -/

/-- The region of a write is one that was built, not one that was read from a text. -/
def Order.Proper : Order → Prop
  | .write (.region _ r _ _) => r.Valid
  | _ => True

/-- Packed data for a region that the dataset grows to. -/
structure Placed (w : Writeable τ) (r : Region) (dense : Block) : Prop where
  valid : r.Valid
  size_pos : 0 < r.size
  shape_le : List.Forall₂ (· ≤ ·) w.shape r.source
  sound : dense.Sound
  shape_eq : dense.shape = r.shape
  itemSize_eq : dense.itemSize = w.lazy.itemSize

theorem packed_eq_ok {r : Region} {data dense : Block} (h : w.packed r data = .ok dense) :
    dense.Sound ∧ dense.shape = r.shape ∧ dense.itemSize = w.lazy.itemSize := by
  simp only [packed, bind_eq_ok] at h
  obtain ⟨z, hz, h⟩ := h
  obtain ⟨hframe, hsound, -⟩ := zeros_eq_ok hz
  have hform := sameForm_setSliceInWords h
  have hframe : dense.toFrame = Frame.packed w.lazy.kind "" r.shape w.lazy.itemSize :=
    hform.frame_eq.trans hframe
  exact ⟨hform.sound hsound, congrArg Frame.shape hframe, congrArg Frame.itemSize hframe⟩

/-- A saver is asked to store packed data for a region that the dataset grows to. -/
theorem Order.placed_of_demand {isOpen isAsync : Bool} {r : Region} {dense : Block}
    (hmax : w.maxShape.length = w.shape.length) (hproper : order.Proper)
    (h : order.demand w isOpen = .ok (.store isAsync r dense)) : w.Placed r dense := by
  obtain ⟨-, call, rfl, htarget, hcheck, hsize, hpacked⟩ := demand_eq_store h
  have hvalid : r.Valid := by
    cases call with
    | region isSync target hr data =>
      cases htarget
      exact hproper
    | arrays data start stop step =>
      simp only [Write.target, bind_eq_ok] at htarget
      obtain ⟨slices, -, htarget⟩ := htarget
      exact valid_ofSlicesWithin htarget
  obtain ⟨hsound, hshape, hitems⟩ := packed_eq_ok hpacked
  exact ⟨hvalid, Nat.pos_of_ne_zero hsize, forall₂_of_checkRegion hmax hcheck, hsound, hshape,
    hitems⟩

/-! ## Handles and storage -/

/-- A handle, and storage of its shape that holds scalars of its kind. The handle is no view. -/
structure Matches (w : Writeable τ) (m : Memory) : Prop where
  shape_eq : w.shape = m.stored.shape
  kind_eq : w.lazy.kind = m.stored.kind
  base_eq : w.lazy.base = none
  perm_eq : w.lazy.perm = none
  length_maxShape : w.maxShape.length = w.shape.length
  sound : m.stored.Sound

/-- What later handles and storage have in common with the first ones. -/
structure Follows (w₀ : Writeable τ) (m₀ : Memory) (w : Writeable τ) (m : Memory) : Prop where
  lazy_eq : w.lazy = { w₀.lazy with shape := w.shape }
  length_maxShape : w.maxShape.length = w.shape.length
  keeps : m.Keeps m₀.stored.kind m₀.stored.itemSize

namespace Follows

variable {w₀ : Writeable τ} {m₀ m' : Memory} {r : Region} {dense : Block}
  {outs outs' : List (Except IoFailure Unit)} {out : Except Error Unit}

variable (h : Follows w₀ m₀ w m)
include h

theorem itemSize_eq : w.lazy.itemSize = w₀.lazy.itemSize := by
  rw [h.lazy_eq]

theorem kept (hlazy : w'.lazy = w.lazy) (hmax : w'.maxShape = w.maxShape) : Follows w₀ m₀ w' m := by
  have hshape : w'.shape = w.shape := congrArg Lazy.shape hlazy
  refine ⟨?_, ?_, h.keeps⟩
  · rw [hlazy, hshape]
    exact h.lazy_eq
  · rw [hmax, hshape]
    exact h.length_maxShape

theorem write (r : Region) (dense : Block) : Follows w₀ m₀ w (Memory.write r dense m).2 :=
  ⟨h.lazy_eq, h.length_maxShape, h.keeps.write r dense⟩

theorem inShape (hplaced : w.Placed r dense) : Follows w₀ m₀ (w.inShape r.source) m := by
  refine ⟨?_, ?_, h.keeps⟩
  · change { w.lazy with shape := r.source } = _
    rw [h.lazy_eq]
    rfl
  · exact h.length_maxShape.trans hplaced.shape_le.length_eq

/-- An order keeps what handles and storage have in common with the first ones. -/
theorem advance (hproper : order.Proper)
    (hadvances : Team.Advances Memory.saver w outs m order w' outs' m' out) :
    Follows w₀ m₀ w' m' := by
  cases hadvances with
  | kept hlazy hmax => exact h.kept hlazy hmax
  | handedOver hdemand =>
    exact (h.inShape (Order.placed_of_demand h.length_maxShape hproper hdemand)).write _ _
  | @written _ r dense _ hdemand hwrite =>
    have hm : (Memory.write r dense m).2 = m' := congrArg Prod.snd hwrite
    rw [← hm]
    exact (h.inShape (Order.placed_of_demand h.length_maxShape hproper hdemand)).write _ _
  | @refused _ r dense _ _ _ hdemand hwrite =>
    have hm : (Memory.write r dense m).2 = m' := congrArg Prod.snd hwrite
    rw [← hm]
    exact h.write _ _

/-- Items of another size than those that are stored never go through. -/
theorem outs_ne_ok (hother : ¬ (w₀.lazy.itemSize = m₀.stored.itemSize ∨ w₀.lazy.itemSize = 1))
    (hproper : order.Proper)
    (hadvances : Team.Advances Memory.saver w outs m order w' outs' m' out)
    (houts : ∀ out ∈ outs, out ≠ .ok ()) : ∀ out ∈ outs', out ≠ .ok () := by
  cases hadvances with
  | @handedOver _ r dense hdemand =>
    have hplaced := Order.placed_of_demand h.length_maxShape hproper hdemand
    have hwrite : (Memory.write r dense m).1 ≠ .ok () := by
      refine h.keeps.write_ne_ok ?_
      rw [hplaced.itemSize_eq, h.itemSize_eq]
      exact hother
    intro out hout
    rcases mem_append.mp hout with hout | hout
    · exact houts out hout
    · rw [mem_singleton.mp hout]
      exact hwrite
  | _ => exact houts

end Follows

namespace Team

variable {w₀ : Writeable τ} {m₀ m' : Memory} {outs outs' : List (Except IoFailure Unit)}
  {results : List (Except Error Unit)} {out : Except Error Unit}

/-! ## One order -/

/-- No order and no background write was stopped at a fault. -/
def Unstopped (results : List (Except Error Unit)) (outs : List (Except IoFailure Unit)) : Prop :=
  (∀ f, .error (.fault f) ∉ results) ∧ ∀ f, .error (.stopped f) ∉ outs

/-- How a handle and storage stand once nothing is pending: the storage is nowhere longer, and if all
writes that were handed over went through the shapes agree. -/
structure Stands (w : Writeable τ) (outs : List (Except IoFailure Unit)) (m : Memory) : Prop where
  shape_le : List.Forall₂ (· ≤ ·) m.stored.shape w.shape
  shape_eq : (∀ out ∈ outs, out = .ok ()) → m.stored.shape = w.shape

theorem stands_of_shape_eq (h : m.stored.shape = w.shape) : Stands w outs m := by
  refine ⟨?_, fun _ => h⟩
  rw [h]
  exact forall₂_same.mpr fun _ _ => le_rfl

/-- An order leaves the storage behind the handle, or in agreement. -/
theorem Stands.advance (hfollows : Follows w₀ m₀ w m)
    (hfits : w₀.lazy.itemSize = m₀.stored.itemSize ∨ w₀.lazy.itemSize = 1) (hproper : order.Proper)
    (h : Stands w outs m) (hadvances : Advances Memory.saver w outs m order w' outs' m' out)
    (hgoes : Unstopped (results ++ [out]) outs') : Stands w' outs' m' := by
  have hcases {isOpen isAsync : Bool} {r : Region} {dense : Block}
      (hdemand : order.demand w isOpen = .ok (.store isAsync r dense)) :
      Forall₂ (· ≤ ·) w.shape r.source ∧ ((∃ e, Memory.write r dense m = (.error e, m)) ∨
        (∃ m', Memory.write r dense m = (.ok (), m') ∧ m'.stored.shape = r.source) ∨
        ∃ f m', Memory.write r dense m = (.error (.stopped f), m')) := by
    have hplaced := Order.placed_of_demand hfollows.length_maxShape hproper hdemand
    refine ⟨hplaced.shape_le, (Memory.write_cases hplaced.valid hplaced.sound hplaced.shape_eq
      fun p hp => ?_).imp_right (.imp_left ?_)⟩
    · obtain ⟨hkeeps, hsource⟩ := hfollows.keeps.prepared hp
      rw [hplaced.itemSize_eq, hfollows.itemSize_eq, hkeeps.itemSize_eq]
      exact ⟨hkeeps.sound, hsource, hfits⟩
    · rintro ⟨p, w, hp, hw, -, hwrite⟩
      exact ⟨_, hwrite,
        (sameForm_writeSliceInWords hw).shape_eq.trans (hfollows.keeps.prepared hp).2⟩
  cases hadvances with
  | kept hlazy _ =>
    have hshape : w'.shape = w.shape := congrArg Lazy.shape hlazy
    exact ⟨hshape ▸ h.shape_le, fun hok => (h.shape_eq hok).trans hshape.symm⟩
  | @handedOver _ r dense hdemand =>
    change Unstopped _ (outs ++ [(Memory.write r dense m).1]) at hgoes
    change Stands _ (outs ++ [(Memory.write r dense m).1]) (Memory.write r dense m).2
    obtain ⟨hle, ⟨e, hwrite⟩ | ⟨m', hwrite, hshape⟩ | ⟨f, m', hwrite⟩⟩ := hcases hdemand
    · rw [hwrite]
      refine ⟨Shape.forall₂_le_trans h.shape_le hle, fun hok => ?_⟩
      cases hok _ (mem_append_right _ (mem_singleton.mpr rfl))
    · rw [hwrite]
      exact stands_of_shape_eq hshape
    · rw [hwrite] at hgoes
      exact absurd (mem_append_right _ (mem_singleton.mpr rfl)) (hgoes.2 f)
  | @written _ r dense _ hdemand hwrite =>
    obtain ⟨-, ⟨e, hwrite'⟩ | ⟨m'', hwrite', hshape⟩ | ⟨f, m'', hwrite'⟩⟩ := hcases hdemand <;>
      cases hwrite.symm.trans hwrite'
    exact stands_of_shape_eq hshape
  | @refused _ r dense _ e _ hdemand hwrite =>
    obtain ⟨-, ⟨e, hwrite'⟩ | ⟨m'', hwrite', hshape⟩ | ⟨f, m'', hwrite'⟩⟩ := hcases hdemand <;>
      cases hwrite.symm.trans hwrite'
    · exact h
    · exact absurd (mem_append_right _ (mem_singleton.mpr rfl)) (hgoes.1 f)

end Team

end Writeable

namespace Writeable.Team

variable {τ : Type} {w : Writeable τ} {m : Memory}

theorem Unstopped.mono {results results' : List (Except Error Unit)}
    {outs outs' : List (Except IoFailure Unit)} (h : Unstopped results' outs')
    (hresults : results ⊆ results') (houts : outs ⊆ outs') : Unstopped results outs :=
  ⟨fun f hf => h.1 f (hresults hf), fun f hf => h.2 f (houts hf)⟩

/-- How a handle and storage stand after any orders and any moments at which a worker acts. -/
theorem exists_standing (h : w.Matches m) (orders : List (Memory → Order))
    (hproper : ∀ next ∈ orders, ∀ s, (next s).Proper) (schedule : List Turn)
    (hpending : ((start w Memory.saver m orders).run Memory.saver schedule).pending = []) :
    let x := (start w Memory.saver m orders).run Memory.saver schedule
    let storable := w.lazy.itemSize = m.stored.itemSize ∨ w.lazy.itemSize = 1
    ∃ w', x.account.handle = w'.backedBy (Queue.saver Memory.saver) ∧ Follows w m w' x.storage ∧
      (storable → Unstopped x.account.results x.attempts → Stands w' x.attempts x.storage) ∧
      (¬ storable → ∀ out ∈ x.attempts, out ≠ .ok ()) := by
  intro x storable
  have hrun := run_induction (x := start w Memory.saver m orders)
    (P := fun w' results outs m' => Follows w m w' m' ∧
      (storable → Unstopped results outs → Stands w' outs m') ∧
      (¬ storable → ∀ out ∈ outs, out ≠ .ok ()))
    ?_ rfl hproper ?_ schedule
  · rwa [outlook_of_idle hpending, settled_of_idle hpending] at hrun
  · intro w' results outs m' order w'' outs' m'' out hproper hadvances ⟨hfollows, hstands, hnone⟩
    refine ⟨hfollows.advance hproper hadvances, ?_, ?_⟩
    · intro hfits hgoes
      have hbefore : Unstopped results outs := by
        refine hgoes.mono (subset_append_left _ _) ?_
        cases hadvances with
        | handedOver hdemand => exact subset_append_left _ _
        | _ => exact Subset.refl _
      exact (hstands hfits hbefore).advance hfollows hfits hproper hadvances hgoes
    · intro hother
      exact hfollows.outs_ne_ok hother hproper hadvances (hnone hother)
  · refine ⟨⟨rfl, h.length_maxShape, h.sound, rfl, rfl⟩, ?_, ?_⟩
    · intro _ _
      exact stands_of_shape_eq h.shape_eq.symm
    · intro _ out hout
      cases hout

/-- **The shapes of a handle and its storage agree if no background write failed.** Take any orders
and any moments at which a worker carries out pending writes, and let nothing be pending or stopped.
If its items can be stored, the handle is nowhere shorter than the storage, and as long if every
background write went through. All is read just if the shapes agree and data and metadata can be
copied. -/
theorem shapes_agree_if_none_failed (h : w.Matches m) (orders : List (Memory → Order))
    (hproper : ∀ next ∈ orders, ∀ s, (next s).Proper) (schedule : List Turn)
    (hpending : ((start w Memory.saver m orders).run Memory.saver schedule).pending = []) :
    let x := (start w Memory.saver m orders).run Memory.saver schedule
    let handle := x.account.handle
    let stored := x.storage.stored
    let storable := w.lazy.itemSize = m.stored.itemSize ∨ w.lazy.itemSize = 1
    (storable → Unstopped x.account.results x.attempts →
        List.Forall₂ (· ≤ ·) stored.shape handle.shape ∧
          ((∀ out ∈ x.attempts, out = .ok ()) → handle.shape = stored.shape)) ∧
      (¬ storable → ∀ out ∈ x.attempts, out ≠ .ok ()) ∧
      (handle.shape ≠ stored.shape → handle.lazy.allInWords.run x.account.state =
        (.error (.ioFailure ("reading " ++ (w.name ++ (Region.full handle.shape).text))
          (Memory.refusal (.incompatibleShapes handle.shape stored.shape))), x.account.state)) ∧
      (handle.shape = stored.shape →
        ((∃ b, handle.lazy.allInWords.run x.account.state = (.ok b, x.account.state)) ↔
          (∃ b, stored.sliceInWords (Region.full stored.shape) = .ok b) ∧
            w.lazy.metadata.checkSlice (Region.full stored.shape) false = .ok () ∧
            ∃ a, w.lazy.metadata.onSlice (Region.full stored.shape) false = .ok a)) := by
  intro x handle stored storable
  obtain ⟨w', hhandle, hfollows, hstands, hnone⟩ :=
    exists_standing h orders hproper schedule hpending
  have hlazy : handle.lazy = { w.lazy with
      shape := handle.shape
      loader := some (Queue.saver Memory.saver).toLoader } := by
    have hw' : handle = w'.backedBy (Queue.saver Memory.saver) := hhandle
    rw [hw']
    change { w'.lazy with loader := some (Queue.saver Memory.saver).toLoader } = _
    rw [hfollows.lazy_eq]
    rfl
  have hshape : handle.shape = w'.shape := congrArg shape hhandle
  have hread : (Queue.saver Memory.saver).read (Region.full handle.shape) x.account.state =
      ((stored.sliceInWords (Region.full handle.shape)).mapError Memory.refusal, x.account.state) :=
    rfl
  have hloaded : ∀ data, (stored.sliceInWords (Region.full handle.shape)).mapError Memory.refusal =
      .ok data → data.shape = (Region.full handle.shape).shape := by
    intro data hdata
    cases hslice : stored.sliceInWords (Region.full handle.shape) with
    | error e =>
      rw [hslice] at hdata
      cases hdata
    | ok b =>
      rw [hslice] at hdata
      cases hdata
      exact (slice_eq_ok (slice_of_inWords hslice)).2.1
  have hall := Lazy.run_sliceInWords_of_whole (l := handle.lazy) (by rw [hlazy]; exact h.base_eq)
    (by rw [hlazy]; exact h.perm_eq) rfl (by rw [hlazy]) hread hloaded
  have hname : handle.lazy.name = w.name := by rw [hlazy]; rfl
  have hmetadata : handle.lazy.metadata = w.lazy.metadata := by rw [hlazy]
  rw [hname, hmetadata] at hall
  refine ⟨?_, hnone, ?_, ?_⟩
  · intro hfits hgoes
    have hstand := hstands hfits hgoes
    rw [hshape]
    exact ⟨hstand.shape_le, fun hok => (hstand.shape_eq hok).symm⟩
  · intro hne
    refine hall.trans ?_
    rw [sliceInWords_eq_error hne]
    rfl
  · intro heq
    have hrun : handle.lazy.allInWords.run x.account.state = _ := hall
    rw [hrun, heq]
    cases stored.sliceInWords (Region.full stored.shape) with
    | error e => exact ⟨fun ⟨_, h⟩ => (nomatch h), fun ⟨⟨_, h⟩, _⟩ => (nomatch h)⟩
    | ok data =>
      cases w.lazy.metadata.checkSlice (Region.full stored.shape) false with
      | error e => exact ⟨fun ⟨_, h⟩ => (nomatch h), fun ⟨_, h, _⟩ => (nomatch h)⟩
      | ok u =>
        cases w.lazy.metadata.onSlice (Region.full stored.shape) false with
        | error e => exact ⟨fun ⟨_, h⟩ => (nomatch h), fun ⟨_, _, _, h⟩ => (nomatch h)⟩
        | ok a => exact ⟨fun _ => ⟨⟨data, rfl⟩, rfl, a, rfl⟩, fun _ => ⟨_, rfl⟩⟩

def twoNumbers : Memory := .of (Dataset.ofList (.int true .w32) [2] 1 [.int 1, .int 2])

theorem far_grows : 2 ^ 60 + 1 < Word.modulus := by decide

theorem farther_grows : 2 ^ 60 + 1 + 1 < Word.modulus := by decide

/-- One number is appended in the background, and then two where the storage cannot grow to. -/
def farOrders : List Order :=
  [.setAsync true, .write (appendNumber 2 two_grows), .write (appendNumber (2 ^ 60) far_grows),
    .write (appendNumber (2 ^ 60 + 1) farther_grows), .flush]

/-- The worker carries out the first write; the flush does the others. -/
def earlyWorker : List Turn := [.client, .client, .worker, .client, .client, .client]

theorem proper_appendNumber {length : Nat} (h : length + 1 < Word.modulus) :
    (Order.write (appendNumber length h)).Proper := by
  have hwithin : (⟨length, length + 1, 1, 1⟩ : Span).Within (length + 1) := by
    refine ⟨Int.one_ne_zero, ?_⟩
    intro p hp
    simp only [Span.coord] at hp ⊢
    omega
  exact ⟨.cons hwithin .nil, by simp [rank], rfl⟩

theorem shapes_agree_if_none_failed_far :
    let x := (start (numbers 2) Memory.saver twoNumbers (fixed farOrders)).run Memory.saver
      earlyWorker
    (numbers 2).Matches twoNumbers ∧ (∀ next ∈ fixed farOrders, ∀ s, (next s).Proper) ∧
      x.pending = [] ∧ x.attempts.map Except.isOk = [true, false, false] ∧
      x.account.handle.shape = [2 ^ 60 + 2] ∧ x.storage.stored.shape = [3] ∧
      (¬ ∀ out ∈ x.attempts, out = .ok ()) ∧
      ∃ e, x.account.handle.lazy.allInWords.run x.account.state = (.error e, x.account.state) := by
  intro x
  have hmatches : (numbers 2).Matches twoNumbers :=
    ⟨rfl, rfl, rfl, rfl, rfl, by decide +kernel⟩
  have hproper : ∀ next ∈ fixed farOrders, ∀ s, (next s).Proper := by
    simp only [fixed, farOrders, List.map_cons, List.map_nil, List.forall_mem_cons]
    exact ⟨fun _ => trivial, fun _ => proper_appendNumber _, fun _ => proper_appendNumber _,
      fun _ => proper_appendNumber _, fun _ => trivial, List.forall_mem_nil _⟩
  have hpending : x.pending = [] := List.isEmpty_iff.mp (by decide +kernel)
  have hattempts : x.attempts.map Except.isOk = [true, false, false] := by decide +kernel
  have hhandle : x.account.handle.shape = [2 ^ 60 + 2] := by decide +kernel
  have hstored : x.storage.stored.shape = [3] := by decide +kernel
  have hgoes : Unstopped x.account.results x.attempts :=
    ⟨fun f => by cases f <;> decide +kernel, fun f => by cases f <;> decide +kernel⟩
  have hne : x.account.handle.shape ≠ x.storage.stored.shape := by
    rw [hhandle, hstored]
    decide
  obtain ⟨hagree, -, hread, -⟩ :=
    shapes_agree_if_none_failed hmatches (fixed farOrders) hproper earlyWorker hpending
  exact ⟨hmatches, hproper, hpending, hattempts, hhandle, hstored,
    fun hok => hne ((hagree (.inl rfl) hgoes).2 hok), _, hread hne⟩

/-- A background write fails, and after the flush the handle is longer than what is stored. -/
theorem failed_write_lengthens_handle :
    let x := (start (numbers 2) Memory.saver twoNumbers (fixed
      [.setAsync true, .write (appendNumber (2 ^ 60) (by decide)), .flush])).run Memory.saver
        [.client, .client, .client]
    x.orders.isEmpty ∧ x.pending.isEmpty ∧ x.account.handle.shape = [2 ^ 60 + 1] ∧
      x.storage.stored.shape = [2] := by
  decide +kernel

end Writeable.Team

end Hyperslab
