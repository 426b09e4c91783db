import Hyperslab.Proofs.Growth
import Hyperslab.Proofs.LazyReads

/-!
# What a writeable dataset stores

A writeable dataset over data in memory is changed by calls that set its fill value or write a
region. Whatever calls are made and whichever of them fail, the storage holds what an abstract
model says that knows nothing of storage: an item for every position, which only writes that went
through change. This ends where a write is stopped at a number that is no word, since the storage
may have grown by then.
-/
namespace Hyperslab

open Dataset List Permutation Region

/-! ## Contents under a write of data -/

namespace Contents

variable {c : Contents} {r : Region} {item item' : Position → List Scalar}

/-- What a dataset of a kind holds. -/
def of (k : Kind) (d : Block) : Contents := ⟨d.shape, k.zero, d.item⟩

/-- The contents after data was stored in a region; an empty region stores nothing. -/
def store (c : Contents) (k : Kind) (n : Nat) (r : Region) (data : Block) : Contents :=
  if r.size = 0 then c else c.write n r (Dataset.brought k n data r.shape)

theorem put_congr (h : ∀ p, r.shape.contains p → item p = item' p) :
    c.put r item = c.put r item' := by
  simp only [put, mk.injEq, true_and]
  funext q
  split
  · next p hp => exact h p (Shape.mem_positions.mp (mem_of_find?_eq_some hp))
  · rfl

theorem item_put_sourcePosition (hr : r.Valid) (hsmall : ∀ m ∈ r.source, m ≤ Word.modulus)
    {p : Position} (hp : r.shape.contains p) :
    (c.put r item).item (r.sourcePosition p) = item p := by
  have hinj : ∀ p p', r.shape.contains p → r.shape.contains p' = true →
      r.sourcePosition p = r.sourcePosition p' → p = p' :=
    fun _ _ hp hp' => hr.sourcePosition_inj hsmall hp hp'
  rw [item_put hr hsmall, Shape.find?_positions_eq_some hinj hp rfl, Option.elim_some]

end Contents

/-! ## Storage in a depot -/

namespace Depot

variable {i : Nat} {m : Memory} {depot : Depot}

theorem memory_setMemory (hi : i < depot.memories.size) : (depot.setMemory i m).memory i = m := by
  simp [setMemory, memory, hi]

theorem size_setMemory : (depot.setMemory i m).memories.size = depot.memories.size := by
  simp [setMemory]

theorem write_memorySaver (i : Nat) (r : Region) (data : Block) (depot : Depot) :
    (memorySaver i).write r data depot =
      ((Memory.write r data (depot.memory i)).1,
        depot.setMemory i (Memory.write r data (depot.memory i)).2) := rfl

end Depot

namespace Writeable

/-! ## Handles and contents -/

/-- The handle stands for the contents, which storage `i` of the depot holds. -/
structure Represents (w : Writeable Depot) (depot : Depot) (i : Nat) (k : Kind) (n : Nat)
    (c : Contents) : Prop where
  saver_eq : w.saver = some (Depot.memorySaver i)
  lazy_eq : w.lazy = .of (some (Depot.memorySaver i).toLoader) k w.name n c.shape
  length_maxShape : w.maxShape.length = c.shape.length
  lt_size : i < depot.memories.size
  name_eq : (depot.memory i).stored.name = w.name
  holds : (depot.memory i).Holds k n c

variable {w : Writeable Depot} {depot : Depot} {i : Nat} {k : Kind} {n : Nat} {c : Contents}
  {r : Region} {data : Block}

theorem Represents.shape_eq (h : w.Represents depot i k n c) : w.shape = c.shape := by
  rw [shape, h.lazy_eq]
  rfl

theorem Represents.openSaver_eq (h : w.Represents depot i k n c) :
    w.openSaver depot = .ok (Depot.memorySaver i) := by
  have hwriteable : (Depot.memorySaver i).isWriteable depot := h.holds.isWriteable
  simp only [openSaver, h.saver_eq, hwriteable, if_true]

private theorem forall₂_of_axisFits {expanded : Bool} {source s limits : Shape}
    (hlength : source.length = s.length) (hlimits : limits.length = s.length)
    (h : ((source.zip s).zip limits).all (fun p => axisFits expanded p.1.1 p.1.2 p.2)) :
    Forall₂ (· ≤ ·) s source := by
  induction s generalizing source limits with
  | nil =>
    rw [eq_nil_of_length_eq_zero hlength]
    exact .nil
  | cons d s ih =>
    obtain ⟨m, source, rfl⟩ := exists_cons_of_length_eq_add_one hlength
    obtain ⟨l, limits, rfl⟩ := exists_cons_of_length_eq_add_one hlimits
    simp only [zip_cons_cons, all_cons, Bool.and_eq_true] at h
    have hdm : d ≤ m := by
      have := h.1
      simp only [axisFits, Bool.or_eq_true, Bool.and_eq_true, beq_iff_eq, decide_eq_true_eq] at this
      omega
    exact .cons hdm (ih (Nat.succ.inj hlength) (Nat.succ.inj hlimits) h.2)

theorem forall₂_of_checkRegion {σ : Type} {w : Writeable σ}
    (hmax : w.maxShape.length = w.shape.length) (h : w.checkRegion r = .ok ()) :
    Forall₂ (· ≤ ·) w.shape r.source := by
  rw [checkRegion] at h
  split at h
  · next hfits => exact forall₂_of_axisFits hfits.1 hmax hfits.2
  · cases h

theorem Represents.slice {m : Nat} (h : w.Represents depot i k n c) (hr : r.Valid)
    (hsource : r.source = c.shape) (hloads : (depot.memory i).stored.LoadsInWords r)
    (hm : reserve k r.shape n = .ok m) :
    ∃ b, (w.lazy.sliceInWords r).run depot = (.ok b, depot) ∧ b.shape = r.shape ∧ b.itemSize = n ∧
      ∀ p, r.shape.contains p → b.getItem p = .ok (c.item (r.sourcePosition p)) := by
  have hplain := h.holds.plain
  have hsource' : r.source = (depot.memory i).stored.shape := hsource.trans h.holds.shape_eq.symm
  have hreserve : reserve (depot.memory i).stored.kind r.shape (depot.memory i).stored.itemSize =
      .ok m := by rw [hplain.kind_eq, h.holds.itemSize_eq, hm]
  have hread := Depot.read_memorySaver i depot r
  rw [hplain.sound.sliceInWords_eq hplain.metadata_eq hr hsource' hreserve, Word.ensure_of hloads,
    hplain.sound.slice_eq hr hsource' hplain.metadata_eq hreserve] at hread
  have hrun := Lazy.run_sliceInWords_of_whole (l := w.lazy) (by rw [h.lazy_eq]; rfl)
    (by rw [h.lazy_eq]; rfl) (by rw [h.lazy_eq]; exact hsource) (by rw [h.lazy_eq]; rfl) hread
    fun _ hdata => by rw [← Except.ok.inj hdata]; rfl
  have hempty : w.lazy.metadata = .empty := by rw [h.lazy_eq]; rfl
  rw [hempty, Metadata.onSlice_empty] at hrun
  refine ⟨_, hrun, rfl, h.holds.itemSize_eq, fun p hp => ?_⟩
  obtain ⟨rfl, hmax⟩ := elementCount_eq_ok (reserve_eq_ok hreserve)
  have hn := hplain.sound.itemSize_pos
  have hlist := bytes_mul_lt (k := (depot.memory i).stored.kind) hmax
  have hitem (p : Position) (_ : r.shape.contains p) :=
    length_item (depot.memory i).stored (r.sourcePosition p)
  have hp' : c.shape.contains (r.sourcePosition p) := by
    rw [← h.holds.shape_eq]
    exact hplain.sound.inside.contains_sourcePosition hr hsource' hp
  exact (sound_ofItems hn hitem hlist).getItem_eq_ok hp |>.trans
    (by rw [item_ofItems hn hitem hlist hp, h.holds.item_eq _ hp'])

/-- Reading a region gives what the data brings to it. -/
def ReadsBack (w : Writeable Depot) (depot : Depot) (k : Kind) (n : Nat) (r : Region)
    (data : Block) : Prop :=
  ∃ b, (w.lazy.sliceInWords r).run depot = (.ok b, depot) ∧ b.shape = r.shape ∧ b.itemSize = n ∧
    ∀ p, r.shape.contains p = true →
      data.shape.contains (data.shape.spreadPosition r.shape p) = true ∧
        b.getItem p = .ok (Dataset.brought k n data r.shape p)

section

variable (h : w.Represents depot i k n c)
include h

/-- The handle after a change, over storage that holds what it then stands for. -/
theorem Represents.setMemory {w' : Writeable Depot} {m : Memory} {c' : Contents}
    (hsaver : w'.saver = w.saver)
    (hlazy : w'.lazy = .of (some (Depot.memorySaver i).toLoader) k w.name n c'.shape)
    (hmax : w'.maxShape.length = c'.shape.length) (hname : m.stored.name = w.name)
    (hm : m.Holds k n c') : w'.Represents (depot.setMemory i m) i k n c' := by
  have hname' : w'.name = w.name := by rw [Writeable.name, hlazy]; rfl
  refine ⟨hsaver.trans h.saver_eq, hname' ▸ hlazy, hmax, ?_, ?_, ?_⟩
  · rw [Depot.size_setMemory]
    exact h.lt_size
  · rw [Depot.memory_setMemory h.lt_size, hname', hname]
  · rw [Depot.memory_setMemory h.lt_size]
    exact hm

/-- The data of a write, packed, is what it brings to the region. -/
theorem Represents.packed_eq_ok {dense : Block}
    (hdata : data.Plain k) (hdense : w.packed r data = .ok dense) :
    dense.Plain k ∧ dense.itemSize = n ∧ dense.shape = r.shape ∧
      (∃ m, reserve k r.shape n = .ok m) ∧ ∀ p, r.shape.contains p →
        data.shape.contains (data.shape.spreadPosition r.shape p) ∧
          dense.item p = brought k n data r.shape p := by
  simp only [packed, bind_eq_ok, h.lazy_eq] at hdense
  obtain ⟨z, hz, hdense⟩ := hdense
  obtain ⟨-, hzeros, -, -, -, hreserve⟩ := zeros_eq_ok hz
  obtain ⟨hplain, hn, hshape, hitems⟩ :=
    setSlice_zeros_eq_ok hdata hz (hzeros.setSlice_of_inWords (valid_full _) hdense)
  exact ⟨hplain, hn, hshape, hreserve, hitems⟩

/-- A region that is not refused goes to the storage, in the same way whether or not the write may
be put off. -/
theorem Represents.run_write {dense : Block} {size : Nat} (isAsync : Bool)
    (hcheck : w.checkRegion r = .ok ()) (hword : r.shape.sizeWord = .ok size) (hsize : size ≠ 0)
    (hdense : w.packed r data = .ok dense) : (w.write isAsync r data).run depot =
      andThen ((Task.ofAction ("writing " ++ w.name ++ r.text)
          ((Depot.memorySaver i).write r dense)).run depot) fun _ =>
        pure ({ w with lazy := { w.lazy with shape := r.source } },
          w.listeners.fire ⟨w.name, r.source⟩) := by
  have hstore : Writeable.store (Depot.memorySaver i) isAsync r dense =
      (Depot.memorySaver i).write r dense := by
    cases isAsync <;> rfl
  simp only [Writeable.write, run_bind, run_lift, hcheck, andThen_ok, run_get, h.openSaver_eq,
    hword, if_neg hsize, hdense, hstore]

end

theorem Represents.readsBack {m : Nat}
    (h : w.Represents depot i k n (c.write n r (brought k n data r.shape))) (hr : r.Valid)
    (hpos : 0 < r.size) (hloads : (depot.memory i).stored.LoadsInWords r)
    (hm : reserve k r.shape n = .ok m) (hspread : ∀ p, r.shape.contains p →
      data.shape.contains (data.shape.spreadPosition r.shape p)) :
    w.ReadsBack depot k n r data := by
  obtain ⟨b, hrun, hshape, hsize, hitems⟩ := h.slice hr rfl hloads hm
  refine ⟨b, hrun, hshape, hsize, fun p hp => ⟨hspread p hp, ?_⟩⟩
  have hsmall : ∀ d ∈ r.source, d ≤ Word.modulus := h.holds.le_modulus (hpos.trans_le hr.size_le)
  rw [hitems p hp, Contents.write, Contents.item_put_sourcePosition hr hsmall hp]

/-- **A write fails and changes nothing, or stores its data,** which then can be read back, or is
stopped at a number that is no word. -/
theorem Represents.write (h : w.Represents depot i k n c) (isAsync : Bool) (hr : r.Valid)
    (hdata : data.Plain k) :
    (∃ e, (w.write isAsync r data).run depot = (.error e, depot)) ∨
      (∃ w' calls depot', (w.write isAsync r data).run depot = (.ok (w', calls), depot') ∧
        w'.Represents depot' i k n (c.store k n r data) ∧
        (0 < r.size → w'.ReadsBack depot' k n r data)) ∨
      ∃ f depot', (w.write isAsync r data).run depot = (.error (.fault f), depot') := by
  cases hcheck : w.checkRegion r with
  | error e =>
    refine .inl ⟨e, ?_⟩
    simp only [Writeable.write, run_bind, run_lift, hcheck, andThen_error]
  | ok u =>
    cases hword : r.shape.sizeWord with
    | error e =>
      refine .inl ⟨e, ?_⟩
      simp only [Writeable.write, run_bind, run_lift, hcheck, andThen_ok, run_get,
        h.openSaver_eq, hword, andThen_error]
    | ok size =>
    obtain rfl : r.size = size := Shape.size_of_sizeWord hword
    by_cases hsize : r.size = 0
    · refine .inr (.inl ⟨w, [], depot, ?_, ?_, fun hpos => absurd hsize hpos.ne'⟩)
      · simp only [Writeable.write, run_bind, run_lift, hcheck, andThen_ok, run_get,
          h.openSaver_eq, hword, if_pos hsize, run_pure]
      · rwa [Contents.store, if_pos hsize]
    · cases hpacked : w.packed r data with
      | error e =>
        refine .inl ⟨e, ?_⟩
        simp only [Writeable.write, run_bind, run_lift, hcheck, andThen_ok, run_get,
          h.openSaver_eq, hword, if_neg hsize, hpacked, andThen_error]
      | ok dense =>
        have hpos := Nat.pos_of_ne_zero hsize
        obtain ⟨hplain, hn, hshape, ⟨l, hl⟩, hitems⟩ := h.packed_eq_ok hdata hpacked
        have hle : Forall₂ (· ≤ ·) c.shape r.source := by
          rw [← h.shape_eq]
          exact forall₂_of_checkRegion (h.shape_eq ▸ h.length_maxShape) hcheck
        have hname := Memory.name_write r dense (depot.memory i)
        have hwrite := Depot.write_memorySaver i r dense depot
        rw [h.run_write isAsync hcheck hword hsize hpacked]
        rcases h.holds.write hr hpos hle hplain hn hshape with
          ⟨e, he⟩ | ⟨m, hm, hholds, hloads⟩ | ⟨f, m, hm⟩
        · rw [he, Depot.setMemory_memory] at hwrite
          exact .inl ⟨_, by rw [Task.run_ofAction, hwrite]; rfl⟩
        · rw [hm] at hwrite hname
          have hcontents : c.write n r dense.item = c.write n r (brought k n data r.shape) :=
            Contents.put_congr fun p hp => (hitems p hp).2
          rw [hcontents] at hholds
          have hgrown : Represents { w with lazy := { w.lazy with shape := r.source } } _ i k n _ :=
            h.setMemory rfl (by rw [h.lazy_eq]; rfl) (h.length_maxShape.trans hle.length_eq)
              (hname.trans h.name_eq) hholds
          rw [← Depot.memory_setMemory h.lt_size (m := m)] at hloads
          rw [Contents.store, if_neg hsize]
          exact .inr (.inl ⟨_, _, _, by rw [Task.run_ofAction, hwrite]; rfl,
            hgrown, fun _ => hgrown.readsBack hr hpos hloads hl fun p hp => (hitems p hp).1⟩)
        · rw [hm] at hwrite
          exact .inr (.inr ⟨f, _, by rw [Task.run_ofAction, hwrite]; rfl⟩)

theorem Represents.setFill {v : Scalar} (h : w.Represents depot i k n c) (hv : k.Holds v) :
    (w.setFill v depot).1.Represents (w.setFill v depot).2 i k n { c with fill := v } := by
  have hdepot : (w.setFill v depot).2 = depot.setMemory i { depot.memory i with fill := v } := by
    simp only [Writeable.setFill, h.saver_eq]
    rfl
  rw [hdepot]
  have hholds := h.holds
  exact h.setMemory rfl h.lazy_eq h.length_maxShape h.name_eq
    ⟨hholds.plain, hholds.itemSize_eq, hholds.separate, hholds.shape_eq, hholds.item_eq, rfl, hv,
      hholds.isWriteable⟩

theorem length_of_checkShapes {s maxShape : Shape} {chunks : Option Shape}
    (h : checkShapes s maxShape chunks = .ok ()) : maxShape.length = s.length := by
  unfold checkShapes at h
  split at h
  · cases h
  · next hallows =>
    simp only [allows, Bool.and_eq_true, beq_iff_eq, not_not] at hallows
    exact hallows.1

theorem represents_ofBlock {d kept : Block} {maxShape : Option Shape} {depot' : Depot}
    (hd : kept.KeepsApart d k) (h : (ofBlock kept maxShape).run depot = (.ok w, depot')) :
    w.Represents depot' depot.memories.size k d.itemSize (.of k d) := by
  have hmemory : Depot.memory depot.memories.size (Depot.keep kept depot).2 = .of kept :=
    Depot.memory_keep kept depot
  -- The storage knows the fill value already.
  have hfill : (Depot.memorySaver depot.memories.size).setFill kept.kind.zero
      (Depot.keep kept depot).2 = (Depot.keep kept depot).2 := by
    have hsame := Depot.setMemory_memory depot.memories.size (Depot.keep kept depot).2
    change (Depot.keep kept depot).2.setMemory depot.memories.size
      { Depot.memory depot.memories.size (Depot.keep kept depot).2 with
        fill := kept.kind.zero } = _
    rw [hmemory] at hsame ⊢
    exact hsame
  simp only [ofBlock, ofSaver, run_bind, run_modifyGet, andThen_ok] at h
  cases hnew : (withoutSaver kept.kind kept.name kept.itemSize kept.shape maxShape none :
      Except Error (Writeable Depot)) with
  | error e =>
    rw [hnew] at h
    cases h
  | ok new =>
    rw [hnew] at h
    simp only [withoutSaver, bind_eq_ok, pure_eq_ok] at hnew
    obtain ⟨⟨⟩, hshapes, rfl⟩ := hnew
    cases h
    change Represents _ ((Depot.memorySaver depot.memories.size).setFill kept.kind.zero
      (Depot.keep kept depot).2) _ _ _ _
    rw [hfill]
    refine ⟨rfl, ?_, ?_, by simp [Depot.keep, Depot.addMemory], by rw [hmemory]; rfl, ?_⟩
    · rw [← hd.itemSize_eq, ← hd.plain.kind_eq, Contents.of, ← hd.shape_eq]
      rfl
    · rw [Contents.of, ← hd.shape_eq]
      exact length_of_checkShapes hshapes
    · rw [hmemory]
      exact ⟨hd.plain, hd.itemSize_eq, hd.separate, hd.shape_eq, hd.item_eq,
        congrArg Kind.zero hd.plain.kind_eq, k.holds_zero, rfl⟩

/-! ## Calls -/

/-- A call on a writeable dataset of kind `k`. Regions are those that can be made, and data is
plain data of the same kind. -/
inductive Call (k : Kind) where
  | setFill (v : Scalar) (hv : k.Holds v)
  | write (isSync : Bool) (r : Region) (hr : r.Built) (data : Block) (hdata : data.Plain k)
  | writeArrays (data : Block) (hdata : data.Plain k) (start stop step : Option (List Int))

namespace Call

/-- Carries out a call; the handle afterwards. -/
def run (w : Writeable Depot) : Call k → Task Depot (Writeable Depot)
  | setFill v _ => modifyGet (w.setFill v)
  | write isSync r _ data _ => do
      let (w, _) ← w.write (!isSync && w.writesAsync) r data
      return w
  | writeArrays data _ start stop step => do
      let (w, _) ← w.writeArrays data start stop step
      return w

/-- The region that a call on the handle writes, and the data. -/
def target (w : Writeable Depot) : Call k → Option (Region × Block)
  | setFill .. => none
  | write _ r _ data _ => some (r, data)
  | writeArrays data _ start stop step =>
      match (Region.slicesOfArrays w.lazy.rank start stop step).bind w.region with
      | .ok r => some (r, data)
      | .error _ => none

/-- What a call on the handle that goes through does to the contents. -/
def effect (n : Nat) (w : Writeable Depot) (c : Contents) : Call k → Contents
  | setFill v _ => { c with fill := v }
  | call => (call.target w).elim c fun (r, data) => c.store k n r data

end Call

/-- A handle and its depot, and the contents of the model. -/
structure Course where
  handle : Writeable Depot
  depot : Depot
  contents : Contents

/-- One more call, which in the model has an effect only if it goes through. There is no course
after a call that is stopped at a fault. -/
def Course.after (n : Nat) (x : Course) (call : Call k) : Option Course :=
  match (call.run x.handle).run x.depot with
  | (.ok w, depot) => some ⟨w, depot, call.effect n x.handle x.contents⟩
  | (.error (.fault _), _) => none
  | (.error _, depot) => some { x with depot := depot }

/-- What holds of one call: it fails and changes nothing, or it has its effect, or it is stopped. -/
theorem Represents.call (h : w.Represents depot i k n c) (call : Call k) :
    (∃ e, (call.run w).run depot = (.error e, depot)) ∨
      (∃ w' depot', (call.run w).run depot = (.ok w', depot') ∧
        w'.Represents depot' i k n (call.effect n w c) ∧
        ∀ r data, call.target w = some (r, data) → 0 < r.size →
          w'.ReadsBack depot' k n r data) ∨
      ∃ f depot', (call.run w).run depot = (.error (.fault f), depot') := by
  cases call with
  | setFill v hv =>
    exact .inr (.inl ⟨_, _, rfl, h.setFill hv, fun _ _ htarget => nomatch htarget⟩)
  | write isSync r hr data hdata =>
    rcases h.write (!isSync && w.writesAsync) hr.valid hdata with
      ⟨e, he⟩ | ⟨w', calls, depot', hrun, hw', hread⟩ | ⟨f, depot', hf⟩
    · exact .inl ⟨e, by simp only [Call.run, run_bind, he, andThen_error]⟩
    · refine .inr (.inl ⟨w', depot', by simp only [Call.run, run_bind, hrun, andThen_ok, run_pure],
        hw', fun r data htarget => ?_⟩)
      cases htarget
      exact hread
    · exact .inr (.inr ⟨f, depot', by simp only [Call.run, run_bind, hf, andThen_error]⟩)
  | writeArrays data hdata start stop step =>
    cases hslices : slicesOfArrays w.lazy.rank start stop step with
    | error e =>
      refine .inl ⟨e, ?_⟩
      simp only [Call.run, Writeable.writeArrays, run_bind, run_lift, hslices, andThen_error]
    | ok slices =>
      cases hregion : w.region slices with
      | error e =>
        refine .inl ⟨e, ?_⟩
        simp only [Call.run, Writeable.writeArrays, run_bind, run_lift, hslices, andThen_ok,
          hregion, andThen_error]
      | ok r =>
        have htarget : (Call.writeArrays data hdata start stop step).target w = some (r, data) := by
          simp only [Call.target, hslices, Except.bind, hregion]
        have heffect : (Call.writeArrays data hdata start stop step).effect n w c =
            c.store k n r data := by
          rw [Call.effect, htarget, Option.elim_some]
          intro v hv hcall
          cases hcall
        have hrun : ((Call.writeArrays data hdata start stop step).run w).run depot =
            andThen ((w.write w.writesAsync r data).run depot) fun x => pure x.1 := by
          simp only [Call.run, Writeable.writeArrays, run_bind, run_lift, hslices, andThen_ok,
            hregion]
        rw [htarget, heffect, hrun]
        rcases h.write w.writesAsync (valid_ofSlicesWithin hregion) hdata with
          ⟨e, he⟩ | ⟨w', calls, depot', hw, hw', hread⟩ | ⟨f, depot', hf⟩
        · exact .inl ⟨e, by rw [he, andThen_error]⟩
        · refine .inr (.inl ⟨w', depot', by rw [hw, andThen_ok, run_pure], hw',
            fun r data htarget => ?_⟩)
          cases htarget
          exact hread
        · exact .inr (.inr ⟨f, depot', by rw [hf, andThen_error]⟩)

theorem Represents.after {x x' : Course} {call : Call k}
    (h : x.handle.Represents x.depot i k n x.contents) (hx : x.after n call = some x') :
    x'.handle.Represents x'.depot i k n x'.contents := by
  rw [Course.after] at hx
  rcases h.call call with ⟨e, he⟩ | ⟨w', depot', hrun, hw', -⟩ | ⟨f, depot', hf⟩
  · rw [he] at hx
    cases e <;> cases hx <;> exact h
  · rw [hrun] at hx
    cases hx
    exact hw'
  · rw [hf] at hx
    cases hx

theorem Represents.run {x x' : Course} (h : x.handle.Represents x.depot i k n x.contents)
    {calls : List (Call k)} (hx : calls.foldlM (Course.after n) x = some x') :
    x'.handle.Represents x'.depot i k n x'.contents := by
  induction calls generalizing x with
  | nil =>
    cases hx
    exact h
  | cons call calls ih =>
    rw [foldlM_cons, Option.bind_eq_bind, Option.bind_eq_some_iff] at hx
    obtain ⟨y, hy, hx⟩ := hx
    exact ih (h.after hy) hx

/-- **The storage of a writeable dataset follows the model** as long as no call is stopped at a
fault. Take a writeable dataset over a copy of plain data, or over plain data whose items lie apart,
and calls that go through or fail. The stored data has the shape of the handle and the contents, and
everywhere the item of the contents. What some further call writes is read back right after. -/
theorem Course.storage_follows_contents {d kept : Block} (hd : d.Plain k)
    (hkept : kept = d.copy ∨ kept = d ∧ d.geometry.Separate) {maxShape : Option Shape}
    {depot₀ : Depot} (hw : (ofBlock kept maxShape).run depot = (.ok w, depot₀))
    {calls : List (Call k)} {x : Course}
    (hx : calls.foldlM (Course.after d.itemSize) ⟨w, depot₀, .of k d⟩ = some x) :
    let stored := (x.depot.memory depot.memories.size).stored
    stored.shape = x.handle.shape ∧ x.handle.shape = x.contents.shape ∧
      (∀ q, x.contents.shape.contains q = true → stored.getItem q = .ok (x.contents.item q)) ∧
      ∀ (call : Call k) w' depot', (call.run x.handle).run x.depot = (.ok w', depot') →
        ∀ r data, call.target x.handle = some (r, data) → 0 < r.size →
          w'.ReadsBack depot' k d.itemSize r data := by
  intro stored
  have hapart : kept.KeepsApart d k := by
    rcases hkept with rfl | ⟨rfl, hsep⟩
    · exact hd.keepsApart_copy
    · exact hd.keepsApart hsep
  have hstart := represents_ofBlock hapart hw
  have h : x.handle.Represents x.depot depot.memories.size k d.itemSize x.contents :=
    Represents.run (by exact hstart) hx
  refine ⟨h.holds.shape_eq.trans h.shape_eq.symm, h.shape_eq, fun q hq => ?_,
    fun call w' depot' hrun => ?_⟩
  · have hq' : stored.shape.contains q = true := by rwa [← h.holds.shape_eq] at hq
    rw [h.holds.plain.sound.getItem_eq_ok hq', h.holds.item_eq q hq]
  · rcases h.call call with ⟨e, he⟩ | ⟨w'', depot'', hrun', -, hread⟩ | ⟨f, depot'', hf⟩
    · rw [he] at hrun
      cases hrun
    · rw [hrun'] at hrun
      cases hrun
      exact hread
    · rw [hf] at hrun
      cases hrun

/-- A row of three items. -/
def row : Block := Dataset.ofList (.int true .w32) [3] 1 ([7, 8, 9].map Scalar.int)

theorem plain_row : row.Plain (.int true .w32) :=
  plain_ofList (by decide) rfl (by decide) (by decide)

/-- The fourth row of data that has two rows of three items and may get more. -/
def fourthRow : Region := ⟨[4, 3], some [unlimited, 3], [⟨3, 4, 1, 1⟩, ⟨0, 3, 1, 3⟩], true, .none⟩

theorem built_fourthRow : fourthRow.Built :=
  @Built.ofSlicesWithin [2, 3] [unlimited, 3] [.range (some 3) (some 4) 1] fourthRow rfl

/-- Sets a fill value, tries a region of another shape, and writes a row past the end. -/
def fourthRowCalls : List (Call (.int true .w32)) :=
  [.setFill (.int (-1)) (by decide),
    .write false (Region.full [3]) (.full _) row plain_row,
    .write true fourthRow built_fourthRow row plain_row]

/-- Writes the second row, which is given by starts and stops. -/
def secondRowCall : Call (.int true .w32) :=
  .writeArrays row plain_row (some [1, 0]) (some [2, 3]) none

def secondRow : Region := ⟨[4, 3], some [unlimited, 3], [⟨1, 2, 1, 1⟩, ⟨0, 3, 1, 3⟩], false, .none⟩

theorem Course.storage_follows_contents_fourth_row :
    ∃ (w w' : Writeable Depot) (depot depot' : Depot) (x : Course),
      (ofBlock rows (some [unlimited, 3])).run .empty = (.ok w, depot) ∧
        fourthRowCalls.foldlM (Course.after 1) ⟨w, depot, .of (.int true .w32) rows⟩ = some x ∧
        let stored := (x.depot.memory 0).stored
        stored.shape = [4, 3] ∧ x.handle.shape = [4, 3] ∧ stored.getItem [1, 2] = .ok [.int 5] ∧
          stored.getItem [2, 0] = .ok [.int (-1)] ∧ stored.getItem [3, 1] = .ok [.int 8] ∧
          (secondRowCall.run x.handle).run x.depot = (.ok w', depot') ∧
          secondRowCall.target x.handle = some (secondRow, row) ∧
          w'.ReadsBack depot' (.int true .w32) 1 secondRow row := by
  have hrows : rows.Plain (.int true .w32) :=
    Dataset.plain_ofList (by decide) rfl (by decide) (by decide)
  have hapart : rows.geometry.Separate := Frame.separate_packed (by decide) (by decide)
  obtain ⟨w, depot, hw⟩ : ∃ w depot,
      (ofBlock rows (some [unlimited, 3])).run .empty = (.ok w, depot) := ⟨_, _, rfl⟩
  obtain ⟨x, hx⟩ : ∃ x, fourthRowCalls.foldlM (Course.after 1)
      ⟨w, depot, .of (.int true .w32) rows⟩ = some x := by
    cases hw
    exact ⟨_, rfl⟩
  obtain ⟨hstored, hshape, hitems, hread⟩ :=
    storage_follows_contents hrows (.inr ⟨rfl, hapart⟩) hw hx
  cases hw
  cases hx
  exact ⟨_, _, _, _, _, rfl, rfl, hstored.trans hshape, hshape, hitems _ rfl, hitems _ rfl,
    hitems _ rfl, rfl, rfl, hread secondRowCall _ _ rfl _ _ rfl (by decide)⟩

/-- One position past the end of data of length 2, under the longest step there is. -/
def farCell : Region := ⟨[6], some [unlimited], [⟨5, 6, 2 ^ 63 - 1, 1⟩], true, .none⟩

/-- The storage has grown when a write is stopped, and the handle does not show it any more. -/
theorem Course.stopped_write_grows_storage :
    ∃ (w : Writeable Depot) (depot depot' : Depot) (e : Error),
      let pair := Dataset.ofList (.int true .w32) [2] 1 ([1, 2].map Scalar.int)
      let item := Dataset.ofList (.int true .w32) [1] 1 [.int 7]
      (ofBlock pair (some [unlimited])).run .empty = (.ok w, depot) ∧
        w.region [.range (some 5) (some 6) (2 ^ 63 - 1)] = .ok farCell ∧
        (w.write false farCell item).run depot = (.error (.fault .overflow), depot') ∧
        w.shape = [2] ∧ (depot'.memory 0).stored.shape = [6] ∧
        w.lazy.allInWords.run depot' = (.error e, depot') :=
  ⟨_, _, _, _, rfl, rfl, rfl, rfl, rfl, rfl⟩

-- Data that a broadcast repeats has one item in several places, and a write changes it in all.
example : ∃ d w w' depot depot' calls,
    (ofList (.int true .w32) [1] 1 [.int 5]).broadcastView [2] = .ok d ∧
      (ofBlock d none).run .empty = (.ok w, depot) ∧
      (w.write false ⟨[2], none, [⟨0, 1, 1, 1⟩], false, .none⟩
        (ofList (.int true .w32) [1] 1 [.int 7])).run depot = (.ok (w', calls), depot') ∧
      (depot'.memory 0).stored.getItem [1] = .ok [.int 7] :=
  ⟨_, _, _, _, _, _, rfl, rfl, rfl, rfl⟩

end Writeable

end Hyperslab
