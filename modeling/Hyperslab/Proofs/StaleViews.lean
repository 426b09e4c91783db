import Hyperslab.Proofs.GrownReads

/-!
# Views of a dataset that is written to

A lazy view remembers the region of the storage that it covers, and that region has the shape that
the storage had. Through writes in place the view shows what is stored now. Once the dataset has
grown, no view that was taken of it before can be read any more.
-/
namespace Hyperslab

open Dataset List Permutation Region

open Permutation (apply inverse)

theorem Dataset.exists_reserve_of_slice {d b : Block} {r : Region} (h : d.slice r = .ok b) :
    ∃ n, reserve d.kind r.shape d.itemSize = .ok n := by
  simp only [slice, Field.slice, bind_eq_ok] at h
  obtain ⟨_, ⟨_, -, n, hn, -⟩, -⟩ := h
  exact ⟨n, hn⟩

theorem ViewStep.onLazy_of_inWords {σ : Type} {l l' : Lazy σ} {step : ViewStep}
    (h : step.onLazyInWords l = .ok l') : step.onLazy l = .ok l' := by
  cases step with
  | slice r hr =>
    simp only [onLazyInWords, Lazy.sliceViewInWords, bind_eq_ok] at h
    obtain ⟨-, -, -, -, h⟩ := h
    exact h
  | transpose axes =>
    simp only [onLazyInWords, Lazy.transposedInWords, bind_eq_ok] at h
    obtain ⟨-, -, -, -, h⟩ := h
    exact h

theorem ViewStep.foldlM_of_inWords {σ : Type} {l l' : Lazy σ} {steps : List ViewStep}
    (h : steps.foldlM onLazyInWords l = .ok l') : steps.foldlM onLazy l = .ok l' := by
  induction steps generalizing l with
  | nil => exact h
  | cons step steps ih =>
    rw [foldlM_cons, bind_eq_ok] at h ⊢
    obtain ⟨l₁, hl₁, h⟩ := h
    exact ⟨l₁, onLazy_of_inWords hl₁, ih h⟩

/-! ## Views -/

namespace Lazy

variable {σ : Type}

/-- The lazy datasets cover the same region in the same order of axes. -/
structure Alike {σ : Type} (l k : Lazy σ) : Prop where
  shape_eq : l.shape = k.shape
  base_eq : l.base = k.base
  perm_eq : l.perm = k.perm

namespace Alike

variable {σ : Type} {l k l' : Lazy σ}

theorem toSource_eq (h : l.Alike k) (r : Region) : l.toSource r = k.toSource r := by
  simp only [toSource, h.shape_eq, h.base_eq, h.perm_eq]

theorem covered_eq (h : l.Alike k) : l.covered = k.covered := by
  simp only [covered, h.shape_eq, h.base_eq, h.perm_eq]

theorem arranged_eq (h : l.Alike k) (source : Region) (data : Block) :
    l.arranged source data = k.arranged source data := by
  simp only [arranged, h.perm_eq]

/-- What can be done to one of them can be done to the other one, if nothing is attached to it. -/
theorem onLazy {step : ViewStep} (h : l.Alike k) (hk : k.metadata = .empty)
    (hl : step.onLazy l = .ok l') :
    ∃ k', step.onLazy k = .ok k' ∧ l'.Alike k' ∧ k'.metadata = .empty := by
  cases step with
  | slice r hr =>
    simp only [ViewStep.onLazy, sliceView, bind_eq_ok, pure_eq_ok, h.toSource_eq, hk] at hl ⊢
    obtain ⟨source, hsource, m, -, rfl⟩ := hl
    exact ⟨_, ⟨source, hsource, .empty, rfl, rfl⟩, ⟨rfl, rfl, h.perm_eq⟩, rfl⟩
  | transpose axes =>
    have hrank : l.rank = k.rank := congrArg length h.shape_eq
    simp only [ViewStep.onLazy, transposed, bind_eq_ok, hrank, h.perm_eq, h.covered_eq,
      h.shape_eq] at hl ⊢
    obtain ⟨p, hp, hl⟩ := hl
    by_cases hid : isIdentity p
    · rw [if_pos hid, pure_eq_ok] at hl
      subst hl
      exact ⟨k.copy, ⟨p, hp, if_pos hid⟩, ⟨h.shape_eq, h.base_eq, h.perm_eq⟩,
        congrArg Metadata.copy hk⟩
    · simp only [if_neg hid, bind_eq_ok, pure_eq_ok] at hl
      obtain ⟨perm, hperm, m, -, rfl⟩ := hl
      refine ⟨{ k with
        shape := apply p k.shape
        base := some k.covered
        perm := if isIdentity perm then none else some perm }, ⟨p, hp, ?_⟩,
        ⟨rfl, rfl, rfl⟩, hk⟩
      simp only [if_neg hid, bind_eq_ok, pure_eq_ok]
      exact ⟨perm, hperm, .empty, by rw [hk, Metadata.onTranspose_empty], by rw [← hk]⟩

theorem foldlM_onLazy {steps : List ViewStep} (h : l.Alike k) (hk : k.metadata = .empty)
    (hl : steps.foldlM ViewStep.onLazy l = .ok l') :
    ∃ k', steps.foldlM ViewStep.onLazy k = .ok k' ∧ l'.Alike k' ∧ k'.metadata = .empty := by
  induction steps generalizing l k with
  | nil =>
    rw [foldlM_nil, pure_eq_ok] at hl
    subst hl
    exact ⟨k, rfl, h, hk⟩
  | cons step steps ih =>
    rw [foldlM_cons, bind_eq_ok] at hl
    obtain ⟨l₁, hl₁, hl⟩ := hl
    obtain ⟨k₁, hk₁, hlike, hmeta⟩ := h.onLazy hk hl₁
    obtain ⟨k', hk', hlike', hmeta'⟩ := ih hlike hmeta hl
    exact ⟨k', by rw [foldlM_cons, bind_eq_ok]; exact ⟨k₁, hk₁, hk'⟩, hlike', hmeta'⟩

end Alike

variable {l v : Lazy Depot} {d : Block} {steps : List ViewStep} {i : Nat} {depot : Depot}

/-- A view of a lazy dataset stands for the view that the same steps make of the data, whatever is
attached to either. -/
theorem exists_tracks (hbase : l.base = none) (hperm : l.perm = none) (hd : d.Sound)
    (hshape : d.shape = l.shape) (hv : steps.foldlM ViewStep.onLazy l = .ok v) :
    ∃ k e, steps.foldlM ViewStep.onBlock d.bare = .ok e ∧ k.Tracks e d.bare ∧ v.Alike k := by
  have hlike : l.Alike (.of l.loader d.bare.kind d.bare.name d.bare.itemSize d.bare.shape) :=
    ⟨hshape.symm, hbase, hperm⟩
  obtain ⟨k, hk, hvk, -⟩ := hlike.foldlM_onLazy rfl hv
  rcases (tracks_of l.loader (d := d.bare) hd rfl).run steps with ⟨err, herr, -⟩ | ⟨k', e, hk', he, h⟩
  · rw [hk] at herr
    cases herr
  · rw [hk] at hk'
    cases hk'
    exact ⟨k, e, he, h, hvk⟩

theorem arranged_bare {source : Region} {data c : Block} (hshape : data.shape = source.shape)
    (hc : l.arranged source data = .ok c) : l.arranged source data.bare = .ok c.bare := by
  have hshape' : data.bare.shape = source.shape := hshape
  simp only [arranged, if_pos hshape, if_pos hshape', bind_eq_ok, pure_eq_ok] at hc ⊢
  obtain ⟨_, rfl, hc⟩ := hc
  refine ⟨_, rfl, ?_⟩
  cases hperm : l.perm with
  | none =>
    simp only [hperm, pure_eq_ok] at hc ⊢
    rw [hc]
  | some p =>
    simp only [hperm, bind_eq_ok, pure_eq_ok] at hc ⊢
    obtain ⟨t, ht, rfl⟩ := hc
    exact ⟨t.bare, transposed_bare ht, rfl⟩

/-- Data that is arranged in words is arranged as without words, and so is data of the same form. -/
theorem arranged_of_inWords {source : Region} {data data' c : Block} (h : data.SameForm data')
    (hshape : data.shape = source.shape) (hc : l.arrangedInWords source data = .ok c) :
    l.arranged source data = .ok c ∧ ∃ c', l.arrangedInWords source data' = .ok c' := by
  have hshape' : data'.shape = source.shape := h.shape_eq.trans hshape
  simp only [arrangedInWords, arranged, if_pos hshape, if_pos hshape', pure_bind] at hc ⊢
  cases hperm : l.perm with
  | none =>
    rw [hperm] at hc
    exact ⟨hc, data', rfl⟩
  | some p =>
    simp only [hperm, bind_eq_ok, pure_eq_ok] at hc ⊢
    obtain ⟨t, ht, u, hwalk, rfl⟩ := hc
    obtain ⟨t', ht', hform⟩ := h.transposedInWords ht
    simp only [Dataset.transposedInWords, bind_eq_ok] at ht
    obtain ⟨-, -, -, -, -, -, ht⟩ := ht
    exact ⟨⟨t, ht, rfl⟩, _, t', ht', u, by rw [hform.frame_eq, hwalk], rfl⟩

theorem run_allInWords_eq_ok {b : Block} {depot' : Depot}
    (hl : v.loader = some (Depot.memorySaver i).toLoader) :
    v.allInWords.run depot = (.ok b, depot') ↔ depot' = depot ∧ ∃ source data c m,
      v.toSourceInWords (full v.shape) = .ok source ∧
        (depot.memory i).stored.sliceInWords source = .ok data ∧
        v.arrangedInWords source data = .ok c ∧
        (v.metadata.checkSlice (full v.shape) false = .ok () ∧
          v.metadata.onSlice (full v.shape) false = .ok m) ∧
        b = { c with name := v.name ++ (full v.shape).text, metadata := m } := by
  simp only [allInWords, sliceInWords, run_bind_eq_ok, run_lift_eq_ok, run_load_eq_ok hl,
    bind_eq_ok, pure_eq_ok]
  constructor
  · rintro ⟨source, _, ⟨hto, rfl⟩, rfl, data, _, m, hdata, ⟨c, hc, ⟨⟩, hcheck, rfl⟩, hm, rfl⟩
    exact ⟨rfl, source, data, c, m, hto, hdata, hc, ⟨hcheck, hm⟩, rfl⟩
  · rintro ⟨rfl, source, data, c, m, hto, hdata, hc, ⟨hcheck, hm⟩, rfl⟩
    exact ⟨source, _, ⟨hto, rfl⟩, rfl, data, c, m, hdata, ⟨c, hc, (), hcheck, rfl⟩, hm, rfl⟩

/-- **Whether a view can be read depends on the form of what is stored alone.** -/
theorem exists_run_allInWords {depot' : Depot} (hl : v.loader = some (Depot.memorySaver i).toLoader)
    (hform : (depot.memory i).stored.SameForm (depot'.memory i).stored)
    (h : ∃ b, v.allInWords.run depot = (.ok b, depot)) :
    ∃ b, v.allInWords.run depot' = (.ok b, depot') := by
  obtain ⟨b, hb⟩ := h
  obtain ⟨-, source, data, c, m, hto, hdata, hc, hm, rfl⟩ := (run_allInWords_eq_ok hl).mp hb
  obtain ⟨data', hdata', hform'⟩ := hform.sliceInWords hdata
  obtain ⟨-, c', hc'⟩ := arranged_of_inWords hform' (slice_eq_ok (slice_of_inWords hdata)).2.1 hc
  exact ⟨_, (run_allInWords_eq_ok hl).mpr ⟨rfl, source, data', c', m, hto, hdata', hc', hm, rfl⟩⟩

section reading

variable {k : Lazy Depot} {e : Block} (hl : v.loader = some (Depot.memorySaver i).toLoader)
  (hd : d.Sound) (hvk : v.Alike k) (h : k.Tracks e d.bare)
include hd hvk h

theorem Alike.exists_toSource : ∃ source, v.toSource (full v.shape) = .ok source ∧
    source.Valid ∧ source.source = d.shape ∧ source.shape = apply (inverse k.order) v.shape ∧
    ∀ q, v.shape.contains q → e.item q =
      d.bare.item (source.sourcePosition (apply (inverse k.order) q)) := by
  have hshape : v.shape = e.shape := hvk.shape_eq.trans h.shape_eq
  obtain ⟨source, hto, hvalid, hsource, hsourceShape, hposition⟩ :=
    h.toSource_eq (valid_full v.shape) hshape
  rw [shape_full] at hsourceShape hposition
  refine ⟨source, by rw [hvk.toSource_eq, hto], hvalid, hsource, hsourceShape, fun q hq => ?_⟩
  have hq' : e.shape.contains q := hshape ▸ hq
  have hsmall : ∀ n ∈ v.shape, n ≤ Word.modulus := by
    rw [hshape]
    exact fun n hn => h.isView.sound.inside.small (Shape.size_pos_of_contains hq') hn
  rw [hposition q hq, sourcePosition_full hsmall hq]
  exact h.isView.item_eq hd hq'

/-- What was copied from the data, in the order of the view. -/
theorem Alike.arranged_ofItems {source : Region} {n : Nat}
    (hsource : source.shape = apply (inverse k.order) v.shape)
    (hn : reserve d.kind source.shape d.itemSize = .ok n) :
    v.arranged source (ofItems d.kind (d.name ++ source.text) source.shape d.itemSize
        fun p => d.bare.item (source.sourcePosition p)) =
      .ok (ofItems d.kind (d.name ++ source.text) v.shape d.itemSize fun q =>
        d.bare.item (source.sourcePosition (apply (inverse k.order) q))) := by
  obtain ⟨rfl, hmax⟩ := elementCount_eq_ok (reserve_eq_ok hn)
  rw [hvk.arranged_eq]
  exact k.arranged_eq d.kind _ h.orders (congrArg length hvk.shape_eq) hsource hd.itemSize_pos
    (fun p _ => length_item d.bare (source.sourcePosition p)) (bytes_mul_lt hmax)

include hl

/-- What is read through a view is what the same view of the data shows. -/
theorem Alike.getItem_of_run {b : Block} (hstored : (depot.memory i).stored = d)
    (hb : v.allInWords.run depot = (.ok b, depot)) :
    b.shape = v.shape ∧ ∀ q, v.shape.contains q → b.getItem q = e.getItem q := by
  obtain ⟨-, source, data, c, m, hto, hdata, hc, -, rfl⟩ := (run_allInWords_eq_ok hl).mp hb
  obtain ⟨source', hto', hvalid, hsource, hshape, hitem⟩ := hvk.exists_toSource hd h
  cases hto'.symm.trans ((v.guarded_toSource _).ok_iff source |>.mp hto).1
  rw [hstored] at hdata
  have hdata := slice_of_inWords hdata
  have hc := (arranged_of_inWords (.refl data) (slice_eq_ok hdata).2.1 hc).1
  obtain ⟨n, hn⟩ := exists_reserve_of_slice hdata
  have hslice := Sound.slice_eq (d := d.bare) hd hvalid hsource rfl hn
  have hbare : v.arranged source data.bare = .ok c.bare := arranged_bare (slice_eq_ok hdata).2.1 hc
  rw [Except.ok.inj ((slice_bare hdata).symm.trans hslice)] at hbare
  have hc := Except.ok.inj (hbare.symm.trans (hvk.arranged_ofItems hd h hshape hn))
  have hcshape : c.bare.shape = v.shape := by
    rw [hc]
    rfl
  refine ⟨hcshape, fun q hq => ?_⟩
  obtain ⟨rfl, hmax⟩ := elementCount_eq_ok (reserve_eq_ok hn)
  have horders : Orders (inverse k.order) v.shape.length := hvk.shape_eq ▸ orders_inverse h.orders
  have hlist : d.kind.bytes * (source.shape.size * d.itemSize) < Word.half := bytes_mul_lt hmax
  rw [hshape, Shape.size_apply horders] at hlist
  have hlength (q : Position) (_ : v.shape.contains q) :
      (d.bare.item (source.sourcePosition (apply (inverse k.order) q))).length = d.itemSize :=
    length_item d.bare _
  change c.bare.getItem q = _
  rw [hc, (sound_ofItems hd.itemSize_pos hlength hlist).getItem_eq_ok hq,
    item_ofItems hd.itemSize_pos hlength hlist hq, ← hitem q hq]
  exact (h.isView.sound.getItem_eq_ok (by rwa [← h.shape_eq, ← hvk.shape_eq])).symm

/-- A view with items, of data that can be copied, is read just if the numbers met are words and what
is attached follows. -/
theorem Alike.exists_run_iff (hstored : (depot.memory i).stored = d) (hcopy : d.Copyable)
    (hpos : 0 < v.shape.size) :
    (∃ b, v.allInWords.run depot = (.ok b, depot)) ↔ v.ReadsInWords d (full v.shape) ∧
      v.metadata.checkSlice (full v.shape) false = .ok () ∧
      ∃ m, v.metadata.onSlice (full v.shape) false = .ok m := by
  obtain ⟨source, hto, hvalid, hsource, hshape, -⟩ := hvk.exists_toSource hd h
  obtain ⟨n, hn⟩ := hcopy.room
  obtain ⟨n, hn⟩ := reserve_of_le (hsource ▸ hvalid.shape_le) hn
  have hpos' : 0 < source.size := by
    have horders : Orders (inverse k.order) v.shape.length :=
      hvk.shape_eq ▸ orders_inverse h.orders
    rw [Region.size, hshape, Shape.size_apply horders]
    exact hpos
  have hform : d.bare.SameForm d := ⟨rfl, rfl, hcopy.fields⟩
  have hbare : d.bare.Sound := hd
  have hslice := hbare.sliceInWords_of_pos rfl hvalid hsource hpos' hn
  simp only [run_allInWords_eq_ok hl, hstored]
  constructor
  · rintro ⟨b, -, source', data, c, m, hto', hdata, -, ⟨hcheck, hm⟩, -⟩
    obtain rfl := Except.ok.inj (hto.symm.trans ((v.guarded_toSource _).ok_iff _ |>.mp hto').1)
    obtain ⟨data', hdata', -⟩ := hform.symm.sliceInWords hdata
    rw [hslice, bind_eq_ok] at hdata'
    obtain ⟨_, hreads, -⟩ := hdata'
    exact ⟨⟨source, hto', (Word.ensure_eq_ok.mp hreads)⟩, hcheck, m, hm⟩
  · rintro ⟨⟨source', hto', hreads⟩, hcheck, m, hm⟩
    obtain rfl := Except.ok.inj (hto.symm.trans ((v.guarded_toSource _).ok_iff _ |>.mp hto').1)
    have hreads : d.bare.ReadsInWords source := hreads
    rw [Word.ensure_of hreads, hbare.slice_eq hvalid hsource rfl hn] at hslice
    obtain ⟨data, hdata, hform'⟩ := hform.sliceInWords hslice
    have harranged := hvk.arranged_ofItems hd h hshape hn
    rw [← v.arrangedInWords_ofItems hd.itemSize_pos
      (fun p _ => length_item d.bare (source.sourcePosition p)) hn hpos'] at harranged
    obtain ⟨-, c, hc⟩ := arranged_of_inWords hform' rfl harranged
    exact ⟨_, trivial, source, data, c, m, hto', hdata, hc, ⟨hcheck, hm⟩, rfl⟩

/-- A view of data that had another shape than what is stored cannot be read. -/
theorem Alike.run_eq_error (hshape : d.shape ≠ (depot.memory i).stored.shape) :
    ∃ e, v.allInWords.run depot = (.error e, depot) ∧ (e = .fault .overflow ∨
      e = .ioFailure ("reading " ++ (v.name ++ (full v.shape).text))
        (Memory.refusal (.incompatibleShapes d.shape (depot.memory i).stored.shape))) := by
  obtain ⟨source, hto, -, hsource, -⟩ := hvk.exists_toSource hd h
  have hread := Depot.read_memorySaver i depot source
  rw [sliceInWords_eq_error (hsource ▸ hshape), hsource] at hread
  simp only [allInWords, sliceInWords, run_bind, run_lift]
  rcases toSourceInWords_follows hto with hto | hto
  · rw [hto, andThen_ok, run_load hl hread]
    exact ⟨_, rfl, .inr rfl⟩
  · rw [hto]
    exact ⟨_, rfl, .inl rfl⟩

end reading

end Lazy

namespace Writeable

/-- **Views can be read until the dataset grows.** Take a writeable dataset over storage in memory
that has its shape, any view of it and any writes that go through after that. As long as the dataset
has kept its shape, the view can be read if it could be when it was taken, and shows the items that
are stored now where the same view of the stored data shows them. Once the dataset has grown, the
view cannot be read any more. -/
theorem views_read_until_growth {w w' : Writeable Depot} {v : Lazy Depot} {depot depot' : Depot}
    {i : Nat} {steps : List ViewStep} {changes : List Change} (hw : w.StoredAt depot i)
    (hsound : (depot.memory i).stored.Sound)
    (hv : steps.foldlM ViewStep.onLazyInWords w.lazy = .ok v)
    (hrun : (Change.runAll w changes).run depot = (.ok w', depot')) :
    (w'.shape = w.shape →
      ((∃ b, v.allInWords.run depot' = (.ok b, depot')) ↔
        ∃ b, v.allInWords.run depot = (.ok b, depot)) ∧
      ∀ b, v.allInWords.run depot' = (.ok b, depot') → b.shape = v.shape ∧
        ∃ e, steps.foldlM ViewStep.onBlock (depot'.memory i).stored.bare = .ok e ∧
          ∀ q, v.shape.contains q = true → b.getItem q = e.getItem q) ∧
    (w'.shape ≠ w.shape → ∃ e, v.allInWords.run depot' = (.error e, depot') ∧
      (e = .fault .overflow ∨ e = .ioFailure ("reading " ++ (v.name ++ (Region.full v.shape).text))
        (Memory.refusal (.incompatibleShapes w.shape w'.shape)))) ∧
    -- When it is taken, a view with items is read if numbers met are words and metadata follows.
    ((depot.memory i).stored.Copyable → 0 < v.shape.size →
      ((∃ b, v.allInWords.run depot = (.ok b, depot)) ↔
        v.ReadsInWords (depot.memory i).stored (Region.full v.shape) ∧
          v.metadata.checkSlice (Region.full v.shape) false = .ok () ∧
          ∃ m, v.metadata.onSlice (Region.full v.shape) false = .ok m)) := by
  obtain ⟨hw', hstems, -⟩ := hw.runAll hrun
  have hv := ViewStep.foldlM_of_inWords hv
  have hl : v.loader = some (Depot.memorySaver i).toLoader :=
    foldlM_induction (P := fun l => l.loader = some (Depot.memorySaver i).toLoader)
      (fun l step _ l' hl hstep => (ViewStep.onLazy_loader hstep).trans hl) hw.loader_eq hv
  obtain ⟨k, e, -, htracks, hvk⟩ :=
    Lazy.exists_tracks hw.base_eq hw.perm_eq hsound hw.shape_eq hv
  refine ⟨?_, ?_, ?_⟩
  · intro hshape
    have hform := hstems.sameForm hshape
    refine ⟨⟨Lazy.exists_run_allInWords hl hform.symm, Lazy.exists_run_allInWords hl hform⟩,
      fun b hb => ?_⟩
    -- The same steps on what is stored now: it has the shape that the view was taken of.
    have hsound' := hform.sound hsound
    obtain ⟨k', e', he', htracks', hvk'⟩ := Lazy.exists_tracks hw.base_eq hw.perm_eq hsound'
      (hform.shape_eq.trans hw.shape_eq) hv
    obtain ⟨hbshape, hitems⟩ := hvk'.getItem_of_run hl hsound' htracks' rfl hb
    exact ⟨hbshape, e', he', hitems⟩
  · intro hshape
    have hne : (depot.memory i).stored.shape ≠ (depot'.memory i).stored.shape := by
      rw [hw.shape_eq, hw'.shape_eq]
      exact Ne.symm hshape
    have herror := hvk.run_eq_error hl hsound htracks hne
    rwa [hw.shape_eq, hw'.shape_eq] at herror
  · intro hcopy hpos
    exact hvk.exists_run_iff hl hsound htracks rfl hcopy hpos

/-- Writes another number into the last column of the first row of `rows`. -/
def rewriteCorner : Write :=
  .region false ⟨[2, 3], none, [⟨0, 1, 1, 1⟩, ⟨2, 3, 1, 1⟩], false, .none⟩ (by decide)
    (Dataset.ofList (.int true .w32) [1, 1] 1 [.int 7])

theorem views_read_until_growth_columns : ∃ (w w' : Writeable Depot) (v : Lazy Depot)
    (depot depot' : Depot) (b : Block),
    (ofBlock rows none).run .empty = (.ok w, depot) ∧
      [.slice outerColumns built_outerColumns, .transpose []].foldlM ViewStep.onLazyInWords w.lazy =
        .ok v ∧
      (Change.runAll w [.write rewriteCorner]).run depot = (.ok w', depot') ∧
      v.allInWords.run depot' = (.ok b, depot') ∧ b.getItem [0, 0] = .ok [.int 7] := by
  obtain ⟨w, depot, hnew⟩ : ∃ w depot, (ofBlock rows none).run .empty = (.ok w, depot) :=
    ⟨_, _, rfl⟩
  obtain ⟨hw, hstored, -⟩ := storedAt_ofBlock hnew
  have hsound : rows.Sound := by decide +kernel
  rw [← hstored] at hsound
  obtain ⟨w', v, depot', hv, hrun, hshape, hvshape, hfirst, hitem⟩ : ∃ w' v depot',
      [.slice outerColumns built_outerColumns, .transpose []].foldlM ViewStep.onLazyInWords w.lazy =
        .ok v ∧
      (Change.runAll w [.write rewriteCorner]).run depot = (.ok w', depot') ∧
      w'.shape = w.shape ∧ v.shape = [2, 2] ∧ (∃ b, v.allInWords.run depot = (.ok b, depot)) ∧
      ∀ e, [.slice outerColumns built_outerColumns, .transpose []].foldlM ViewStep.onBlock
        (depot'.memory 0).stored.bare = .ok e → e.getItem [0, 0] = .ok [.int 7] := by
    cases hnew
    refine ⟨_, _, _, rfl, rfl, rfl, rfl, ⟨_, rfl⟩, fun e he => ?_⟩
    cases he
    rfl
  obtain ⟨hboth, hitems⟩ := (views_read_until_growth hw hsound hv hrun).1 hshape
  obtain ⟨b, hb⟩ := hboth.mpr hfirst
  obtain ⟨-, e, he, hget⟩ := hitems b hb
  refine ⟨w, w', v, depot, depot', b, hnew, hv, hrun, hb, ?_⟩
  rw [hget [0, 0] (by rw [hvshape]; rfl)]
  exact hitem e he

/-- A view of all of the numbers is taken, another number is appended, and the view cannot be read
any more. -/
theorem growth_ends_views : ∃ (w w' : Writeable Depot) (v : Lazy Depot) (depot depot' : Depot),
    (ofBlock numbers (some [unlimited])).run .empty = (.ok w, depot) ∧
      [.slice (Region.full [2]) (.full _)].foldlM ViewStep.onLazyInWords w.lazy = .ok v ∧
      (Change.runAll w [.write (appendNumber 2 (by decide))]).run depot = (.ok w', depot') ∧
      ∃ e, v.allInWords.run depot' = (.error e, depot') :=
  ⟨_, _, _, _, _, rfl, rfl, rfl, _, rfl⟩

end Writeable

end Hyperslab
