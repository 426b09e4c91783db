import Hyperslab.Proofs.Composition
import Hyperslab.Proofs.LazyViews
import Hyperslab.Proofs.SliceFolds
import Hyperslab.Proofs.Transpositions

/-!
# What is read of sources in words

A dataset in memory is read in words where the numbers met in walking the region are words. A lazy
view of it composes the region with the one that it remembers, and then the loader reads what the
data holds there: two places where a number may be no word, and the read is stopped. Wherever it is
not, the same items are read as without words.
-/
namespace Hyperslab

open Word

namespace Word

variable {α γ : Type} {P Q : Prop} {x y : Except Error α}

/-- What is computed in words is what is computed over exact integers, just if a condition holds.
Otherwise, it stops at a number that is no word. -/
structure Guarded (P : Prop) (x y : Except Error α) : Prop where
  follows : Follows x y
  ok_iff : ∀ a, x = .ok a ↔ y = .ok a ∧ P

theorem Guarded.refl (h : P) (x : Except Error α) : Guarded P x x :=
  ⟨.inl rfl, fun _ => (and_iff_left h).symm⟩

theorem Guarded.error (e : Error) : Guarded P (.error e : Except Error α) (.error e) :=
  ⟨.inl rfl, fun _ => ⟨(nomatch ·), (nomatch ·.1)⟩⟩

theorem Guarded.congr (h : Guarded P x y) (hPQ : P ↔ Q) : Guarded Q x y :=
  ⟨h.follows, fun a => (h.ok_iff a).trans (and_congr_right fun _ => hPQ)⟩

theorem guarded_ensure (P : Prop) [Decidable P] (x : Except Error α) :
    Guarded P (do ensure P; x) x := by
  by_cases h : P
  · rw [ensure_of h]
    exact .refl h x
  · rw [ensure_of_not h]
    exact ⟨.inr rfl, fun a => ⟨(nomatch ·), fun hok => absurd hok.2 h⟩⟩

/-- What fails as a guarded step does is guarded by the step in words. -/
theorem Guarded.seq {z : Except Error γ} (h : Guarded P x y) (hz : ∀ e, y = .error e → z = .error e) :
    Guarded P (do let _ ← x; z) z where
  follows := by
    rcases h.follows with rfl | rfl
    · cases x with
      | error e => exact .inl (hz e rfl).symm
      | ok a => exact .inl rfl
    · exact .inr rfl
  ok_iff c := by
    rw [bind_eq_ok]
    constructor
    · rintro ⟨a, ha, hc⟩
      exact ⟨hc, ((h.ok_iff a).mp ha).2⟩
    · rintro ⟨hc, hP⟩
      cases y with
      | error e => cases (hz e rfl).symm.trans hc
      | ok a => exact ⟨a, (h.ok_iff a).mpr ⟨rfl, hP⟩, hc⟩

end Word

/-- A region with items is copied in words just if the view of it is read in words. -/
theorem Frame.Sound.loadsInWords_iff_of_pos {f : Frame} {length : Nat} {r : Region}
    (h : f.Sound length) (hr : r.Valid) (hsource : r.source = f.shape) (hpos : 0 < r.size) :
    f.LoadsInWords r ↔ f.ReadsInWords r :=
  ⟨fun hloads => (h.readsInWords_iff_of_pos hr hsource hpos).mpr hloads.2.2.2,
    fun hreads => ⟨hreads.own, hreads.size, hreads.strides, hreads.walk⟩⟩

theorem Dataset.Sound.sliceInWords_of_pos {d : Block} {r : Region} {n : Nat} (hd : d.Sound)
    (hmeta : d.metadata = .empty) (hr : r.Valid) (hsource : r.source = d.shape) (hpos : 0 < r.size)
    (hn : reserve d.kind r.shape d.itemSize = .ok n) :
    d.sliceInWords r = (do ensure (d.ReadsInWords r); d.slice r) :=
  (hd.sliceInWords_eq hmeta hr hsource hn).trans
    (congrArg (· >>= _) (ensure_congr (Frame.Sound.loadsInWords_iff_of_pos hd hr hsource hpos)))

namespace Source

variable {σ : Type} {src : Source σ} {d : Block} {state : σ}

/-- What is read of the source in a state is read of the dataset where it can be read, and leaves
the state. A number met on the way that is no word stops all other reads. -/
structure ShowsWhere (src : Source σ) (d : Block) (state : σ) (R : Region → Prop)
    [DecidablePred R] : Prop where
  shape_eq : src.shape = d.shape
  read_eq : ∀ r : Region, r.Valid → r.source = d.shape → 0 < r.size →
    (∃ n, reserve d.kind r.shape d.itemSize = .ok n) →
      (src.read r).run state = ((do Word.ensure (R r); d.slice r), state)

theorem showsWhere_source (d : Block) (state : σ) : d.source.ShowsWhere d state fun _ => True where
  shape_eq := rfl
  read_eq _ _ _ _ _ := by
    rfl

/-- A dataset in memory shows itself where the numbers met are words. -/
theorem showsWhere_sourceInWords (hd : d.Sound) (hmeta : d.metadata = .empty) (state : σ) :
    d.sourceInWords.ShowsWhere d state fun r => d.ReadsInWords r where
  shape_eq := rfl
  read_eq _ hr hsource hpos hroom := by
    obtain ⟨n, hn⟩ := hroom
    exact Prod.ext (hd.sliceInWords_of_pos hmeta hr hsource hpos hn) rfl

end Source

/-! ## Lazy datasets -/

namespace Lazy

open Permutation (apply inverse Orders)

variable {σ : Type} {l : Lazy σ} {v d : Block} {r source : Region} {state : σ} {loader : Loader σ}

/-- The numbers met in finding what a region stands for are words: it is composed with the region
that the lazy dataset covers. -/
def ComposesInWords (l : Lazy σ) (r : Region) : Prop :=
  ∀ inner, l.perm.elim (.ok r) (fun p => r.permuted? (inverse p)) = .ok inner →
    ∀ b, l.base = some b → b.ComposesInWords inner

theorem guarded_toSource (l : Lazy σ) (r : Region) :
    Guarded (l.ComposesInWords r) (l.toSourceInWords r) (l.toSource r) := by
  rw [toSourceInWords, toSource]
  split
  · exact .error _
  · cases hinner : l.perm.elim (.ok r) (fun p => r.permuted? (inverse p)) with
    | error e => exact .error e
    | ok inner =>
      rw [ok_bind, ok_bind]
      cases hbase : l.base with
      | none =>
        refine .refl (fun _ _ b hb => ?_) _
        cases hbase.symm.trans hb
      | some b =>
        have hiff : l.ComposesInWords r ↔ b.ComposesInWords inner := by
          simp [ComposesInWords, hinner, hbase]
        refine ⟨?_, fun source => ?_⟩
        · rw [Option.elim_some, Option.elim_some, Region.composeInWords_eq]
          cases b.compose inner with
          | error e => exact .inl rfl
          | ok source => exact follows_ensure _ _
        · rw [hiff]
          exact Region.composeInWords_eq_ok_iff

theorem toSourceInWords_follows (h : l.toSource r = .ok source) :
    Follows (l.toSourceInWords r) (.ok source) := h ▸ (l.guarded_toSource r).follows

/-- The region is composed in words, and what it stands for is read in words. -/
def ReadsInWords (l : Lazy σ) (d : Block) (r : Region) : Prop :=
  ∃ source, l.toSourceInWords r = .ok source ∧ d.ReadsInWords source

theorem readsInWords_iff (h : l.toSourceInWords r = .ok source) :
    l.ReadsInWords d r ↔ d.ReadsInWords source := by
  constructor
  · rintro ⟨source', hsource, hreads⟩
    exact Except.ok.inj (h.symm.trans hsource) ▸ hreads
  · exact fun hreads => ⟨source, h, hreads⟩

instance (l : Lazy σ) (d : Block) : DecidablePred (l.ReadsInWords d) := fun r =>
  match h : l.toSourceInWords r with
  | .error _ => isFalse fun ⟨_, hsource, _⟩ => nomatch h.symm.trans hsource
  | .ok _ => decidable_of_iff _ (readsInWords_iff h).symm

theorem arrangedInWords_of_shape_eq {data : Block} (hperm : l.perm = none)
    (hshape : data.shape = source.shape) : l.arrangedInWords source data = .ok data := by
  simp only [arrangedInWords, if_pos hshape, hperm]
  rfl

/-- A read through a lazy dataset that shows all that its loader has, as it is. -/
theorem run_sliceInWords_of_whole {out : Except IoFailure Block} (hbase : l.base = none)
    (hperm : l.perm = none) (hsource : r.source = l.shape) (hloader : l.loader = some loader)
    (hread : loader.read r state = (out, state))
    (hshape : ∀ data, out = .ok data → data.shape = r.shape) :
    (l.sliceInWords r).run state = ((do
      let data ← out.mapError (.ofIoFailure ("reading " ++ (l.name ++ r.text)))
      l.metadata.checkSlice r false
      let m ← l.metadata.onSlice r false
      return { data with name := l.name ++ r.text, metadata := m }), state) := by
  have hto : l.toSourceInWords r = .ok r := by
    simp only [toSourceInWords, hsource, hperm, hbase, ne_eq, not_true]
    rfl
  simp only [sliceInWords, run_bind, run_lift, hto, andThen_ok, run_load hloader hread]
  cases out with
  | error e => rfl
  | ok data =>
    simp only [Except.mapError, ok_bind, arrangedInWords_of_shape_eq hperm (hshape data rfl),
      bind_assoc]
    rfl

/-- Data that is arranged in words is arranged as without words, or stops at a number that is no
word. -/
theorem arrangedInWords_follows {data : Block} (hmeta : data.metadata = .empty)
    (hshape : data.shape = source.shape) :
    Follows (l.arrangedInWords source data) (l.arranged source data) := by
  rw [arrangedInWords, arranged, if_pos hshape, if_pos hshape]
  cases l.perm with
  | none => exact .inl rfl
  | some p =>
    refine (Dataset.transposedInWords_follows hmeta _).bind fun e _ => ?_
    rw [Frame.checkWalk_eq]
    exact follows_ensure _ _

/-- Packed data with items for which there is room is arranged. -/
theorem arrangedInWords_ofItems {k : Kind} {name : String} {n m : Nat}
    {item : Position → List Scalar} (hn : 0 < n)
    (hitem : ∀ p, source.shape.contains p → (item p).length = n)
    (hm : reserve k source.shape n = .ok m) (hpos : 0 < source.size) :
    l.arrangedInWords source (Dataset.ofItems k name source.shape n item) =
      l.arranged source (Dataset.ofItems k name source.shape n item) := by
  obtain ⟨rfl, hmax⟩ := elementCount_eq_ok (reserve_eq_ok hm)
  have hd : (Dataset.ofItems k name source.shape n item).Sound :=
    Dataset.sound_ofItems hn hitem (bytes_mul_lt hmax)
  have hsize : (Dataset.ofItems k name source.shape n item).buffer.size = source.shape.size * n :=
    Dataset.length_flatten_items hitem
  have hbuffer : 2 * (Dataset.ofItems k name source.shape n item).buffer.size ≤ half := by
    have : 2 * maxElements ≤ half := by decide
    omega
  have hshape : (Dataset.ofItems k name source.shape n item).shape = source.shape := rfl
  rw [arrangedInWords, arranged, if_pos hshape, if_pos hshape, pure_bind]
  cases l.perm with
  | none => rfl
  | some p =>
    have hroom := Frame.Sound.room_lt hd hpos
    change (do let e ← Dataset.transposedInWords _ _; e.checkWalk; pure e.dense) = _
    rw [Dataset.transposedInWords_of_room rfl hn hroom]
    refine bind_congr_ok fun e he => ?_
    obtain ⟨perm, hperm, -⟩ := bind_eq_ok.mp he
    rw [Dataset.transposed_eq_through hd rfl (Permutation.ofAxes_eq_ok_iff.mp hperm)] at he
    obtain rfl := Except.ok.inj he
    have horders := Permutation.orders_of_ofAxes hperm
    have hreorders := Frame.reordersInWords_of_room hn horders hroom
    rw [Frame.checkWalk_eq, ensure_of ⟨fun _ => hreorders.2,
      Frame.Sound.allFit_walkNumbers_permuted_of_dense hd horders rfl hpos hbuffer⟩]
    rfl

namespace Tracks

theorem orders_inverse (h : l.Tracks v d) (hr : r.Valid) (hsource : r.source = v.shape) :
    Orders (inverse l.order) r.shape.length := by
  have hrank : r.shape.length = l.rank := by
    rw [Region.length_shape, ← hr.length_source, hsource, ← h.shape_eq]
    rfl
  exact hrank ▸ Permutation.orders_inverse h.orders

theorem reserve_source (h : l.Tracks v d) (hr : r.Valid) (hsource : r.source = v.shape)
    (hpos : 0 < r.size) {n : Nat} (hn : reserve v.kind r.shape v.itemSize = .ok n) :
    reserve v.kind (apply (inverse l.order) r.shape) v.itemSize = .ok n :=
  reserve_apply (h.orders_inverse hr hsource) hpos h.isView.sound.itemSize_pos hn

section

variable (h : l.Tracks v d) (hd : d.Sound) (hmeta : d.metadata = .empty)
  (hloader : l.loader = some loader)
include h hd hmeta hloader

/-- A lazy dataset shows the view that it stands for, if its loader reads the data. -/
theorem showsWhere
    (hread : ∀ source b, d.slice source = .ok b → loader.read source state = (.ok b, state)) :
    l.source.ShowsWhere v state fun _ => True where
  shape_eq := h.shape_eq
  read_eq r hr hsource hpos hroom := by
    obtain ⟨n, hn⟩ := hroom
    obtain ⟨b, hb, hrun⟩ := h.slice_run hd hmeta hloader hread hr hsource hn
      (h.reserve_source hr hsource hpos hn)
    rw [hb]
    exact hrun

section

variable (hread : ∀ source, loader.read source state =
    ((d.sliceInWords source).mapError Memory.refusal, state))
  (hr : r.Valid) (hsource : r.source = v.shape)
include hread hr hsource

/-- The steps of a read in words, of which each may be stopped. -/
theorem run_sliceInWords {n m : Nat} (hn : reserve v.kind r.shape v.itemSize = .ok n)
    (hm : reserve v.kind (apply (inverse l.order) r.shape) v.itemSize = .ok m) :
    ∃ source data c, l.toSource r = .ok source ∧ source.Valid ∧ source.source = d.shape ∧
      source.shape = apply (inverse l.order) r.shape ∧
      reserve d.kind source.shape d.itemSize = .ok m ∧ d.slice source = .ok data ∧
      l.arranged source data = .ok c ∧
      v.slice r = .ok { c with name := l.name ++ r.text, metadata := .empty } ∧
      (l.sliceInWords r).run state = ((do
        let _ ← l.toSourceInWords r
        ensure (d.LoadsInWords source)
        let c ← l.arrangedInWords source data
        .ok { c with name := l.name ++ r.text, metadata := .empty }), state) := by
  obtain ⟨source, data, c, hto, hvalid, hsource', hshape, hm, hdata, hc, hslice⟩ :=
    h.exists_arranged hd hmeta hr hsource hn hm
  refine ⟨source, data, c, hto, hvalid, hsource', hshape, hm, hdata, hc, hslice, ?_⟩
  have hwords := hd.sliceInWords_eq hmeta hvalid hsource' hm
  simp only [sliceInWords, run_bind, run_lift]
  rcases toSourceInWords_follows hto with hto | hto
  · rw [hto, andThen_ok, run_load hloader (hread source), hwords, h.metadata_eq,
      Metadata.onSlice_empty]
    by_cases hloads : d.LoadsInWords source
    · rw [ensure_of hloads, hdata]
      simp only [Except.mapError, ok_bind]
      cases l.arrangedInWords source data <;> rfl
    · rw [ensure_of_not hloads]
      rfl
  · rw [hto]
    rfl

/-- **What is read in words is read as without words.** -/
theorem sliceInWords_follows {n m : Nat} (hn : reserve v.kind r.shape v.itemSize = .ok n)
    (hm : reserve v.kind (apply (inverse l.order) r.shape) v.itemSize = .ok m) :
    ∃ x, (l.sliceInWords r).run state = (x, state) ∧ Follows x (v.slice r) := by
  obtain ⟨source, data, c, hto, -, -, -, -, hdata, hc, hslice, hrun⟩ :=
    h.run_sliceInWords hd hmeta hloader hread hr hsource hn hm
  refine ⟨_, hrun, ?_⟩
  obtain ⟨-, hshape, hempty⟩ := Dataset.slice_eq_ok hdata
  rw [hmeta] at hempty
  rcases toSourceInWords_follows hto with hto | hto
  · by_cases hloads : d.LoadsInWords source
    · rw [hto, ensure_of hloads, hslice]
      rcases l.arrangedInWords_follows (Except.ok.inj hempty).symm hshape with
        harranged | harranged
      · exact .inl (by rw [harranged, hc]; rfl)
      · exact .inr (by rw [harranged]; rfl)
    · exact .inr (by rw [hto, ensure_of_not hloads]; rfl)
  · exact .inr (by rw [hto]; rfl)

/-- A region with items is read just if it is composed and read in words. -/
theorem run_sliceInWords_of_pos (hpos : 0 < r.size) {n : Nat}
    (hn : reserve v.kind r.shape v.itemSize = .ok n) : (l.sliceInWords r).run state =
      ((do ensure (l.ReadsInWords d r); v.slice r), state) := by
  obtain ⟨source, data, c, hto, hvalid, hsource', hshape, hm, hdata, hc, hslice, hrun⟩ :=
    h.run_sliceInWords hd hmeta hloader hread hr hsource hn (h.reserve_source hr hsource hpos hn)
  have hpos' : 0 < source.size := by
    rw [Region.size, hshape, Shape.size_apply (h.orders_inverse hr hsource)]
    exact hpos
  obtain rfl := Except.ok.inj ((hd.slice_eq hvalid hsource' hmeta hm).symm.trans hdata)
  rw [hrun, hslice, l.arrangedInWords_ofItems hd.itemSize_pos (by simp) hm hpos', hc]
  have hiff := Frame.Sound.loadsInWords_iff_of_pos hd hvalid hsource' hpos'
  rcases toSourceInWords_follows hto with hto | hto
  · rw [hto, ensure_congr (hiff.trans (l.readsInWords_iff hto).symm)]
    rfl
  · have hnot : ¬ l.ReadsInWords d r := by
      rintro ⟨source', hwords, -⟩
      cases hto.symm.trans hwords
    rw [hto, ensure_of_not hnot]
    rfl

end

/-- In words, a lazy dataset shows the view where regions are composed and read in words, if its
loader reads the data in words. -/
theorem showsWhere_inWords (hread : ∀ source, loader.read source state =
      ((d.sliceInWords source).mapError Memory.refusal, state)) :
    l.sourceInWords.ShowsWhere v state (l.ReadsInWords d) where
  shape_eq := h.shape_eq
  read_eq r hr hsource hpos hroom := by
    obtain ⟨n, hn⟩ := hroom
    exact h.run_sliceInWords_of_pos hd hmeta hloader hread hr hsource hpos hn

end

end Tracks

/-! ## Views of data in memory -/

/-- A lazy view of a dataset stands for the view of the dataset itself, and has its loader. -/
theorem tracks_views {steps : List ViewStep} (hd : d.Sound) (hmeta : d.metadata = .empty)
    (hl : steps.foldlM ViewStep.onLazy (of (some loader) d.kind d.name d.itemSize d.shape) = .ok l)
    (hv : steps.foldlM ViewStep.onBlock d = .ok v) : l.Tracks v d ∧ l.loader = some loader := by
  refine ⟨?_, foldlM_induction (P := fun l => l.loader = some loader)
    (fun l step _ l' hl hstep => (ViewStep.onLazy_loader hstep).trans hl) rfl hl⟩
  rcases (tracks_of (some loader) hd hmeta).run steps with ⟨e, hl', -⟩ | ⟨l', v', hl', hv', h⟩
  · cases hl.symm.trans hl'
  · obtain rfl := Except.ok.inj (hl.symm.trans hl')
    obtain rfl := Except.ok.inj (hv.symm.trans hv')
    exact h

/-- **A lazy view of data in memory shows the view of the data itself.** -/
theorem exists_showsWhere (hd : d.Sound) (hmeta : d.metadata = .empty) (depot : Depot) :
    ∃ l depot', (ofBlock d).run depot = (.ok l, depot') ∧
      ∀ (steps : List ViewStep) (l' : Lazy Depot) (v : Block),
        steps.foldlM ViewStep.onLazy l = .ok l' → steps.foldlM ViewStep.onBlock d = .ok v →
        v.Sound ∧ v.metadata = .empty ∧ l'.source.ShowsWhere v depot' fun _ => True := by
  refine ⟨_, (Depot.keep d depot).2, rfl, fun steps l' v hl hv => ?_⟩
  obtain ⟨h, hloader⟩ := tracks_views hd hmeta hl hv
  exact ⟨h.isView.sound, h.isView.metadata_eq,
    h.showsWhere hd hmeta hloader fun _ _ => Depot.read_memoryLoader_keep⟩

/-- **Data in memory behind the lazy interface is read as the data itself.** -/
theorem exists_shows (hd : d.Sound) (hmeta : d.metadata = .empty) (depot : Depot) :
    ∃ l depot', (ofBlockInWords d).run depot = (.ok l, depot') ∧ l.sourceInWords.Shows d depot' := by
  refine ⟨_, (Depot.keep d depot).2, rfl, rfl, rfl, fun r hr hsource hroom => ?_⟩
  obtain ⟨n, hn⟩ := hroom
  have hread := Depot.read_memorySaver_keep d depot r
  have hslice := hd.slice_eq hr hsource hmeta hn
  rw [hd.sliceInWords_eq hmeta hr hsource hn, hslice] at hread
  rw [hslice]
  -- The copy has the name and the metadata that the lazy dataset gives to what it has read.
  by_cases hloads : d.LoadsInWords r
  · rw [ensure_of hloads] at hread ⊢
    exact run_sliceInWords_of_whole rfl rfl hsource rfl hread fun _ hdata => by cases hdata; rfl
  · rw [ensure_of_not hloads] at hread ⊢
    exact run_sliceInWords_of_whole rfl rfl hsource rfl hread fun _ hdata => by cases hdata

end Lazy

/-! ## Steps in words -/

namespace ViewStep

variable {α σ : Type}

/-- A condition holds at each step of a run, as far as the run goes. -/
def EachFits (fits : α → ViewStep → Prop) (next : α → ViewStep → Except Error α) :
    α → List ViewStep → Prop
  | _, [] => True
  | a, step :: steps => fits a step ∧ ∀ b, next a step = .ok b → EachFits fits next b steps

/-- Steps that are guarded, in states that the steps lead to, are so one after another. -/
theorem guarded_foldlM {fits : α → ViewStep → Prop} {f g : α → ViewStep → Except Error α}
    {Q : α → Prop} (hkeep : ∀ a step b, Q a → g a step = .ok b → Q b)
    (hstep : ∀ a step, Q a → Guarded (fits a step) (f a step) (g a step)) {a : α} (ha : Q a)
    (steps : List ViewStep) :
    Guarded (EachFits fits g a steps) (steps.foldlM f a) (steps.foldlM g a) := by
  induction steps generalizing a with
  | nil => exact ⟨.inl rfl, fun b => (and_iff_left trivial).symm⟩
  | cons step steps ih =>
    have hhere := hstep a step ha
    refine ⟨hhere.follows.bind fun b hb => (ih (hkeep a step b ha hb)).follows, fun c => ?_⟩
    rw [List.foldlM_cons, List.foldlM_cons, bind_eq_ok, bind_eq_ok]
    constructor
    · rintro ⟨b, hb, hc⟩
      obtain ⟨hb, hfits⟩ := (hhere.ok_iff b).mp hb
      obtain ⟨hc, hrest⟩ := ((ih (hkeep a step b ha hb)).ok_iff c).mp hc
      refine ⟨⟨b, hb, hc⟩, hfits, fun b' hb' => ?_⟩
      obtain rfl := Except.ok.inj (hb.symm.trans hb')
      exact hrest
    · rintro ⟨⟨b, hb, hc⟩, hfits, hrest⟩
      exact ⟨b, (hhere.ok_iff b).mpr ⟨hb, hfits⟩,
        ((ih (hkeep a step b ha hb)).ok_iff c).mpr ⟨hc, hrest b hb⟩⟩

def onLazyInWords (l : Lazy σ) : ViewStep → Except Error (Lazy σ)
  | slice r _ => l.sliceViewInWords r
  | transpose axes => l.transposedInWords axes

def onBlockInWords (d : Block) : ViewStep → Except Error Block
  | slice r _ => d.sliceViewInWords r
  | transpose axes => d.transposedInWords axes

/-- The numbers met in a step of a lazy dataset are words. -/
def FitsLazy (l : Lazy σ) : ViewStep → Prop
  | slice r _ => l.ComposesInWords r
  | transpose _ => True

/-- The numbers met in a step of a dataset are words. -/
def FitsBlock (d : Block) : ViewStep → Prop
  | slice r _ => d.ViewsInWords r
  | transpose axes => ∀ perm, Permutation.ofAxes d.rank axes = .ok perm → d.ReordersInWords perm

theorem guarded_onLazy {l : Lazy σ} (hmeta : l.metadata = .empty) (step : ViewStep) :
    Guarded (FitsLazy l step) (onLazyInWords l step) (onLazy l step) := by
  cases step with
  | slice r hr =>
    rw [onLazyInWords, Lazy.sliceViewInWords, hmeta]
    refine (l.guarded_toSource r).seq fun e he => ?_
    rw [Lazy.sliceView, he]
    rfl
  | transpose axes =>
    simp only [onLazyInWords, Lazy.transposedInWords, hmeta, Metadata.checkTranspose_empty]
    refine (Guarded.refl trivial _).seq fun e he => ?_
    rw [Lazy.transposed, he]
    rfl

theorem guarded_onBlock {d : Block} (hd : d.Sound) (hmeta : d.metadata = .empty) (step : ViewStep) :
    Guarded (FitsBlock d step) (onBlockInWords d step) (onBlock d step) := by
  cases step with
  | slice r hr =>
    by_cases hsource : r.source = d.shape
    · rw [onBlockInWords, Dataset.sliceViewInWords_of_empty hd hmeta hr.valid hsource]
      exact guarded_ensure (d.ViewsInWords r) _
    · have hcheck : d.checkRegion r = .error (.incompatibleShapes r.source d.shape) :=
        if_neg hsource
      rw [onBlockInWords, onBlock, Dataset.sliceViewInWords, Frame.sliceInWords,
        Frame.regionInWords, Dataset.sliceView, Frame.slice, hcheck]
      exact .error _
  | transpose axes =>
    rw [onBlockInWords, onBlock, Dataset.transposedInWords_eq hmeta]
    cases hperm : Permutation.ofAxes d.rank axes with
    | error e =>
      rw [Dataset.transposed, hperm]
      exact .error e
    | ok perm =>
      have hiff : d.ReordersInWords perm ↔ FitsBlock d (transpose axes) := by
        simp [FitsBlock, hperm]
      exact (guarded_ensure _ _).congr hiff

/-- **The steps of a lazy dataset and those of the view that it stands for are guarded.** -/
theorem guarded_of_tracks {l : Lazy σ} {v d : Block} (h : l.Tracks v d) (steps : List ViewStep) :
    Guarded (EachFits FitsLazy onLazy l steps) (steps.foldlM onLazyInWords l)
        (steps.foldlM onLazy l) ∧
      Guarded (EachFits FitsBlock onBlock v steps) (steps.foldlM onBlockInWords v)
        (steps.foldlM onBlock v) := by
  constructor
  · refine guarded_foldlM (Q := fun l => ∃ v, l.Tracks v d) (fun l step l' htracks hl => ?_)
      (fun l step htracks => ?_) ⟨v, h⟩ steps
    · obtain ⟨v, htracks⟩ := htracks
      rcases htracks.step step with ⟨e, hl', -⟩ | ⟨l'', v', hl', -, h'⟩
      · cases hl.symm.trans hl'
      · exact ⟨v', Except.ok.inj (hl'.symm.trans hl) ▸ h'⟩
    · obtain ⟨v, htracks⟩ := htracks
      exact guarded_onLazy htracks.metadata_eq step
  · refine guarded_foldlM (Q := fun v => ∃ l : Lazy σ, l.Tracks v d) (fun v step v' htracks hv => ?_)
      (fun v step htracks => ?_) ⟨l, h⟩ steps
    · obtain ⟨l, htracks⟩ := htracks
      rcases htracks.step step with ⟨e, -, hv'⟩ | ⟨l', v'', -, hv', h'⟩
      · cases hv.symm.trans hv'
      · exact ⟨l', Except.ok.inj (hv'.symm.trans hv) ▸ h'⟩
    · obtain ⟨l, htracks⟩ := htracks
      exact guarded_onBlock htracks.isView.sound htracks.isView.metadata_eq step

/-- **Lazy views show what eager views show.** For a dataset with nothing attached, behind the lazy
interface and by itself, any sequence of slices and transposes goes through on both sides or on
neither, but for numbers that are no words. Where it does, the two sides have the same name, shape
and item size, and every region that can be set aside, with its axes in any order, is read on both
sides as the same dataset. -/
theorem lazy_simulates_eager (d : Block) (hd : d.Sound) (hmeta : d.metadata = .empty)
    (depot : Depot) (steps : List ViewStep) :
    ∃ l depot', (Lazy.ofBlockInWords d).run depot = (.ok l, depot') ∧
      ((∃ l', steps.foldlM onLazy l = .ok l') ↔ ∃ v, steps.foldlM onBlock d = .ok v) ∧
      -- Each side is stopped just if a number met there is no word.
      Word.Guarded (EachFits FitsLazy onLazy l steps) (steps.foldlM onLazyInWords l)
        (steps.foldlM onLazy l) ∧
      Word.Guarded (EachFits FitsBlock onBlock d steps) (steps.foldlM onBlockInWords d)
        (steps.foldlM onBlock d) ∧
      ∀ l' v, steps.foldlM onLazy l = .ok l' → steps.foldlM onBlock d = .ok v →
        l'.name = v.name ∧ l'.shape = v.shape ∧ l'.itemSize = v.itemSize ∧
        ∀ r : Region, r.Built → r.source = v.shape →
          (∀ t, List.Perm t r.shape → ∃ n, reserve v.kind t v.itemSize = .ok n) →
          ∃ b x, v.slice r = .ok b ∧ Word.Guarded (v.LoadsInWords r) (v.sliceInWords r) (.ok b) ∧
            (l'.sliceInWords r).run depot' = (x, depot') ∧ Word.Follows x (.ok b) ∧
            (0 < r.size → Word.Guarded (l'.ReadsInWords d r) x (.ok b)) := by
  let loader := (Depot.memorySaver (Depot.keep d depot).1).toLoader
  have htracks := Lazy.tracks_of (some loader) hd hmeta
  obtain ⟨hlazy, hblock⟩ := guarded_of_tracks htracks steps
  refine ⟨.of (some loader) d.kind d.name d.itemSize d.shape, (Depot.keep d depot).2, rfl, ?_,
    hlazy, hblock, fun l' v hl hv => ?_⟩
  · rcases htracks.run steps with ⟨e, hl, hv⟩ | ⟨l', v, hl, hv, -⟩
    · simp [hl, hv]
    · simp [hl, hv]
  · obtain ⟨h, hloader⟩ := Lazy.tracks_views hd hmeta hl hv
    refine ⟨h.name_eq, h.shape_eq, h.itemSize_eq, fun r hr hsource hreserve => ?_⟩
    obtain ⟨n, hn⟩ := hreserve r.shape (.refl _)
    obtain ⟨m, hm⟩ := hreserve _ (Permutation.apply_perm (h.orders_inverse hr.valid hsource))
    have hread := Depot.read_memorySaver_keep d depot
    obtain ⟨b, hb⟩ : ∃ b, v.slice r = .ok b :=
      ⟨_, h.isView.sound.slice_eq hr.valid hsource h.isView.metadata_eq hn⟩
    obtain ⟨x, hrun, hfollows⟩ :=
      h.sliceInWords_follows hd hmeta hloader hread hr.valid hsource hn hm
    rw [hb] at hfollows
    refine ⟨b, x, hb, ?_, hrun, hfollows, fun hpos => ?_⟩
    · rw [h.isView.sound.sliceInWords_eq h.isView.metadata_eq hr.valid hsource hn, hb]
      exact guarded_ensure _ _
    · have hpositive := h.run_sliceInWords_of_pos hd hmeta hloader hread hr.valid hsource hpos hn
      obtain rfl := congrArg Prod.fst (hrun.symm.trans hpositive)
      rw [hb]
      exact guarded_ensure _ _

end ViewStep

/-- Two rows of three columns. -/
def rows : Block :=
  Dataset.ofList (.int true .w32) [2, 3] 1 ([0, 1, 2, 3, 4, 5].map Scalar.int)

/-- The outer columns of `rows`, the last one first. -/
def outerColumns : Region := ⟨[2, 3], none, [⟨0, 2, 1, 2⟩, ⟨2, -1, -2, 2⟩], false, .none⟩

theorem built_outerColumns : outerColumns.Built :=
  @Region.Built.ofSlices [2, 3] [.all, .range none none (-2)] outerColumns rfl

theorem ViewStep.lazy_simulates_eager_columns : ∃ (l l' : Lazy Depot) (depot : Depot) (v b : Block),
    (Lazy.ofBlockInWords rows).run .empty = (.ok l, depot) ∧
      [slice outerColumns built_outerColumns, transpose []].foldlM onLazyInWords l = .ok l' ∧
      [slice outerColumns built_outerColumns, transpose []].foldlM onBlockInWords rows = .ok v ∧
      v.sliceInWords (Region.full [2, 2]) = .ok b ∧
      (l'.sliceInWords (Region.full [2, 2])).run depot = (.ok b, depot) ∧
      b.toList = [2, 5, 0, 3].map Scalar.int := by
  obtain ⟨v, hv, hkind, hitem, hshape, b, hb, hwords, hlist⟩ : ∃ v,
      [slice outerColumns built_outerColumns, transpose []].foldlM onBlockInWords rows = .ok v ∧
      v.kind = .int true .w32 ∧ v.itemSize = 1 ∧ v.shape = [2, 2] ∧
      ∃ b, v.slice (Region.full [2, 2]) = .ok b ∧ v.sliceInWords (Region.full [2, 2]) = .ok b ∧
        b.toList = [2, 5, 0, 3].map Scalar.int :=
    ⟨_, rfl, rfl, rfl, rfl, _, rfl, rfl, rfl⟩
  obtain ⟨l, depot, hl, -, hlazy, hblock, hread⟩ := lazy_simulates_eager rows
    (by decide +kernel) rfl .empty [slice outerColumns built_outerColumns, transpose []]
  obtain ⟨l', hl', hreads⟩ : ∃ l',
      [slice outerColumns built_outerColumns, transpose []].foldlM onLazyInWords l = .ok l' ∧
      l'.ReadsInWords rows (Region.full [2, 2]) := by
    cases hl
    exact ⟨_, rfl, _, rfl, by decide⟩
  obtain ⟨-, -, -, hread⟩ := hread l' v ((hlazy.ok_iff l').mp hl').1 ((hblock.ok_iff v).mp hv).1
  have hreserve : ∀ t, List.Perm t [2, 2] → ∃ n, reserve v.kind t v.itemSize = .ok n := by
    intro t ht
    obtain rfl : t = List.replicate 2 2 := List.perm_replicate.mp ht
    rw [hkind, hitem]
    exact ⟨4, rfl⟩
  obtain ⟨b', x, hb', -, hrun, -, hguarded⟩ :=
    hread (Region.full [2, 2]) (.full _) hshape.symm hreserve
  obtain rfl : b = b' := Except.ok.inj (hb.symm.trans hb')
  obtain rfl := ((hguarded (by decide)).ok_iff b).mpr ⟨rfl, hreads⟩
  exact ⟨l, l', depot, v, b, hl, hl', hv, hwords, hrun, hlist⟩

/-- The numbers below ten. -/
def digits : Block := Dataset.ofList (.int true .w32) [10] 1 ((List.range 10).map (Scalar.int ·))

/-- The sixth of ten items, with the longest step that there is. -/
def sixth : Region := ⟨[10], none, [⟨5, 10, 9223372036854775807, 1⟩], false, .none⟩

/-- The first of the items, of which there is one. -/
def first : Region := ⟨[1], none, [⟨0, 1, 1, 1⟩], false, .none⟩

/-- A view of the sixth item, and a view of all of that view. -/
def ViewStep.farSteps : List ViewStep :=
  [slice sixth (@Region.Built.ofSlices [10] [.range (some 5) none 9223372036854775807] sixth rfl),
    slice first (@Region.Built.ofSlices [1] [.range (some 0) (some 1) 1] first rfl)]

/-- **A view of a lazy view may be stopped where that of an eager view is not.** The position behind
the last one of the composed region is no word. -/
theorem ViewStep.far_steps_stop_lazily : ∃ (l : Lazy Depot) (depot : Depot) (v : Block),
    (Lazy.ofBlockInWords digits).run .empty = (.ok l, depot) ∧
      farSteps.foldlM onLazyInWords l = .error (.fault .overflow) ∧
      farSteps.foldlM onBlockInWords digits = .ok v :=
  ⟨_, _, _, rfl, rfl, rfl⟩

/-- **A lazy view of data in memory that is read in words shows the view of the data itself where
regions are composed and read in words.** -/
theorem Lazy.exists_showsWhere_inWords {d : Block} (hd : d.Sound) (hmeta : d.metadata = .empty)
    (depot : Depot) : ∃ l depot', (ofBlockInWords d).run depot = (.ok l, depot') ∧
      ∀ (steps : List ViewStep) (l' : Lazy Depot) (v : Block),
        steps.foldlM ViewStep.onLazyInWords l = .ok l' → steps.foldlM ViewStep.onBlock d = .ok v →
        v.Sound ∧ v.metadata = .empty ∧
          l'.sourceInWords.ShowsWhere v depot' (l'.ReadsInWords d) := by
  refine ⟨_, (Depot.keep d depot).2, rfl, fun steps l' v hl hv => ?_⟩
  have htracks := tracks_of (some (Depot.memorySaver (Depot.keep d depot).1).toLoader) hd hmeta
  have hguarded := (ViewStep.guarded_of_tracks htracks steps).1
  obtain ⟨h, hloader⟩ := tracks_views hd hmeta ((hguarded.ok_iff l').mp hl).1 hv
  refine ⟨h.isView.sound, h.isView.metadata_eq,
    h.showsWhere_inWords hd hmeta hloader (Depot.read_memorySaver_keep d depot)⟩

end Hyperslab
