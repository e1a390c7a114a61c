import SpatialDb.Lib.Runs
import SpatialDb.Server.Object

/-!
# Sparse searches

Model of `geoSparse`, `geoSparseInner`, `Within` and `Intersects` of
`internal/legacy/collection/collection.go`.  A sparse search cuts the rectangle
of the area into quads, `4 ^ sparse` of them, and is to report one object for
each.  The callback of a quad answers with two flags: whether the object was
reported, which ends the quad, and whether to go on at all.

An object that does not match is answered with two false flags.  The search of
the whole area ends there, and not only the object is passed over.
-/

namespace SpatialDb.Server

open Lib List

/-- `geometry.Rect`. -/
structure Rect (K : Type*) where
  minX : K
  minY : K
  maxX : K
  maxY : K
  deriving DecidableEq

/-- The spatial index of a collection: a search lists exactly the objects
whose rectangles overlap, each once, in an order of its own. -/
structure SpatialIndex (G K : Type*) where
  objs : List (Bytes × Object G)
  overlaps : Bytes × Object G → Rect K → Bool
  search : Rect K → List (Bytes × Object G)
  ids_nodup : (objs.map Prod.fst).Nodup
  search_perm : ∀ rect, (search rect).Perm (objs.filter fun o => overlaps o rect)

section

variable {G K : Type*}

/-- The variables that the callbacks share, and the quads visited so far with
the objects reported in each. -/
structure SparseState (G K : Type*) where
  known : List Bytes := []
  count : Nat := 0
  reported : List (Bytes × Object G) := []
  visited : List (Rect K × List (Bytes × Object G)) := []

/-- What a sparse search is given: whether an object matches the area, the
caller's answer to a reported object, and the cursor. -/
structure SparseCall (G : Type*) where
  test : Bytes × Object G → Bool
  iter : Bytes × Object G → Bool
  offset : Nat := 0

/-- The callback of `geoSparse` around the one of `Within` or `Intersects`: the
flags `match` and `ok`. -/
def callback (call : SparseCall G) (st : SparseState G K) (o : Bytes × Object G) :
    Bool × Bool × SparseState G K :=
  if o.1 ∈ st.known then (false, true, st)
  else
    let st := { st with count := st.count + 1 }
    if st.count ≤ call.offset then (false, true, st)
    else if call.test o then
      (true, call.iter o,
        { st with known := o.1 :: st.known, reported := st.reported ++ [o] })
    else (false, false, st)

/-- The search of one quad; false if the whole search is to end. -/
def searchQuad (call : SparseCall G) :
    List (Bytes × Object G) → SparseState G K → Bool × SparseState G K
  | [], st => (true, st)
  | o :: objs, st =>
    let (reported, ok, st) := callback call st o
    if !ok then (false, st)
    else if reported then (true, st)
    else searchQuad call objs st

/-- The search of one quad, with the record of what it reported. -/
def visitQuad (ix : SpatialIndex G K) (call : SparseCall G) (rect : Rect K)
    (st : SparseState G K) : Bool × SparseState G K :=
  let (alive, st') := searchQuad call (ix.search rect) st
  (alive, { st' with
    visited := st'.visited ++ [(rect, st'.reported.drop st.reported.length)] })

variable [Add K] [Sub K] (half : K → K)

/-- The upper two quarters and the lower two, each from the left. -/
def quarters (rect : Rect K) : List (Rect K) :=
  let w := rect.maxX - rect.minX
  let h := rect.maxY - rect.minY
  [⟨rect.minX, rect.minY + half h, rect.minX + half w, rect.maxY⟩,
    ⟨rect.minX + half w, rect.minY + half h, rect.maxX, rect.maxY⟩,
    ⟨rect.minX, rect.minY, rect.minX + half w, rect.minY + half h⟩,
    ⟨rect.minX + half w, rect.minY, rect.maxX, rect.minY + half h⟩]

/-- The loop over the quarters, which ends at the first false. -/
def whileAlive {α σ : Type*} (f : α → σ → Bool × σ) : List α → σ → Bool × σ
  | [], st => (true, st)
  | a :: l, st =>
    let (alive, st) := f a st
    if !alive then (false, st) else whileAlive f l st

def geoSparseInner (ix : SpatialIndex G K) (call : SparseCall G) :
    Nat → Rect K → SparseState G K → Bool × SparseState G K
  | 0, rect, st => visitQuad ix call rect st
  | sparse + 1, rect, st =>
    whileAlive (fun quad st => geoSparseInner ix call sparse quad st) (quarters half rect) st

/-- `geoSparse`; it returns `true` whatever happens. -/
def geoSparse (ix : SpatialIndex G K) (call : SparseCall G) (rect : Rect K) (sparse : Nat) :
    Bool × SparseState G K :=
  (true, (geoSparseInner half ix call sparse rect {}).2)

/-- The search without SPARSE. -/
def geoSearch (call : SparseCall G) :
    List (Bytes × Object G) → SparseState G K → Bool × SparseState G K
  | [], st => (true, st)
  | o :: objs, st =>
    let st := { st with count := st.count + 1 }
    if st.count ≤ call.offset then geoSearch call objs st
    else if call.test o then
      let st := { st with reported := st.reported ++ [o] }
      if call.iter o then geoSearch call objs st else (false, st)
    else geoSearch call objs st

/-- `Within` and `Intersects`: they differ in the test. -/
def areaSearch (ix : SpatialIndex G K) (call : SparseCall G) (rect : Rect K) (sparse : Nat) :
    Bool × SparseState G K :=
  if sparse > 0 then geoSparse half ix call rect sparse else geoSearch call (ix.search rect) {}

/-- `geojson`'s rectangle of an area, and its relations between an object and
an area. -/
structure AreaLib (G A K : Type*) where
  rect : A → Rect K
  within : Geometry G → A → Bool
  intersects : Geometry G → A → Bool

/-- `Within`, for a caller that never stops and no cursor. -/
def Within {A : Type*} (lib : AreaLib G A K) (ix : SpatialIndex G K) (area : A) (sparse : Nat) :
    Bool × SparseState G K :=
  areaSearch half ix ⟨fun o => lib.within o.2.geo area, fun _ => true, 0⟩ (lib.rect area) sparse

/-- `Intersects`, for a caller that never stops and no cursor. -/
def Intersects {A : Type*} (lib : AreaLib G A K) (ix : SpatialIndex G K) (area : A) (sparse : Nat) :
    Bool × SparseState G K :=
  areaSearch half ix ⟨fun o => lib.intersects o.2.geo area, fun _ => true, 0⟩ (lib.rect area) sparse

/-! ## The walk along the quads -/

/-- The quads of a rectangle, in the order of the recursion. -/
def quadsAt : Nat → Rect K → List (Rect K)
  | 0, rect => [rect]
  | sparse + 1, rect => (quarters half rect).flatMap (quadsAt sparse)

theorem length_quadsAt (sparse : Nat) (rect : Rect K) :
    (quadsAt half sparse rect).length = 4 ^ sparse := by
  induction sparse generalizing rect with
  | zero => rfl
  | succ sparse ih =>
    simp only [quadsAt, quarters, flatMap_cons, flatMap_nil, length_append, ih, length_nil]
    omega

theorem whileAlive_append {α σ : Type*} (f : α → σ → Bool × σ) (l m : List α) (st : σ) :
    whileAlive f (l ++ m) st =
      if (whileAlive f l st).1 then whileAlive f m (whileAlive f l st).2
      else whileAlive f l st := by
  induction l generalizing st with
  | nil => rfl
  | cons a l ih =>
    rcases hf : f a st with ⟨alive, st'⟩
    cases alive with
    | false => simp [whileAlive, hf]
    | true => simpa [whileAlive, hf] using ih st'

theorem whileAlive_flatMap {α β σ : Type*} (f : α → σ → Bool × σ) (g : β → List α) (l : List β)
    (st : σ) :
    whileAlive (fun b st => whileAlive f (g b) st) l st = whileAlive f (l.flatMap g) st := by
  induction l generalizing st with
  | nil => rfl
  | cons b l ih =>
    rw [flatMap_cons, whileAlive_append, whileAlive]
    cases halive : (whileAlive f (g b) st).1 with
    | false => simp [halive, Prod.ext_iff]
    | true => simp [halive, ih]

theorem geoSparseInner_eq (ix : SpatialIndex G K) (call : SparseCall G) (sparse : Nat)
    (rect : Rect K) (st : SparseState G K) :
    geoSparseInner half ix call sparse rect st =
      whileAlive (visitQuad ix call) (quadsAt half sparse rect) st := by
  induction sparse generalizing rect st with
  | zero =>
    rw [geoSparseInner, quadsAt, whileAlive]
    cases halive : (visitQuad ix call rect st).1 with
    | false => simp [halive, Prod.ext_iff]
    | true => simp [halive, whileAlive, Prod.ext_iff]
  | succ sparse ih =>
    rw [geoSparseInner, quadsAt, ← whileAlive_flatMap]
    congr 1
    funext quad st
    exact ih quad st

end

/-! ## What is reported, quad by quad -/

section

variable {G K : Type*} (ix : SpatialIndex G K) (test : Bytes × Object G → Bool)

/-- The first object that the index lists for a quad and that was not reported
before. -/
def firstNew (quad : Rect K) (reported : List (Bytes × Object G)) : Option (Bytes × Object G) :=
  (ix.search quad).find? fun o => o.1 ∉ reported.map Prod.fst

/-- The quads visited, with the objects reported in each, when `reported` has
been reported before.  The first new object of a quad decides: it is reported,
or ends the search. -/
def outcome : List (Rect K) → List (Bytes × Object G) → List (Rect K × List (Bytes × Object G))
  | [], _ => []
  | quad :: quads, reported =>
    match firstNew ix quad reported with
    | none => (quad, []) :: outcome quads reported
    | some o =>
      if test o then (quad, [o]) :: outcome quads (reported ++ [o]) else [(quad, [])]

variable {ix test}

/-- The state of a search knows the ids of what it reported. -/
def Knows (st : SparseState G K) : Prop := ∀ id, id ∈ st.known ↔ id ∈ st.reported.map Prod.fst

theorem searchQuad_eq (objs : List (Bytes × Object G)) (st : SparseState G K) :
    searchQuad ⟨test, fun _ => true, 0⟩ objs st =
      match objs.find? fun o => o.1 ∉ st.known with
      | none => (true, st)
      | some o =>
        if test o then
          (true, { st with
            count := st.count + 1, known := o.1 :: st.known, reported := st.reported ++ [o] })
        else (false, { st with count := st.count + 1 }) := by
  induction objs with
  | nil => rfl
  | cons o objs ih =>
    by_cases hknown : o.1 ∈ st.known
    · simp only [searchQuad, callback, hknown, if_true, Bool.not_true, Bool.false_eq_true,
        if_false, ih, find?_cons, not_true_eq_false, decide_false]
    · cases htest : test o <;> simp [searchQuad, callback, hknown, htest]

theorem visitQuad_eq {st : SparseState G K} (hst : Knows st) (quad : Rect K) :
    visitQuad ix ⟨test, fun _ => true, 0⟩ quad st =
      match firstNew ix quad st.reported with
      | none => (true, { st with visited := st.visited ++ [(quad, [])] })
      | some o =>
        if test o then
          (true, { st with
            count := st.count + 1, known := o.1 :: st.known, reported := st.reported ++ [o]
            visited := st.visited ++ [(quad, [o])] })
        else (false, { st with
            count := st.count + 1, visited := st.visited ++ [(quad, [])] }) := by
  have hfind : firstNew ix quad st.reported = (ix.search quad).find? fun o => o.1 ∉ st.known := by
    simp only [firstNew, hst _]
  rw [visitQuad, searchQuad_eq, hfind]
  cases (ix.search quad).find? fun o => o.1 ∉ st.known with
  | none => simp
  | some o => cases htest : test o <;> simp [htest]

variable (quads : List (Rect K))

theorem visits_eq_outcome (st : SparseState G K) (hst : Knows st) :
    (whileAlive (visitQuad ix ⟨test, fun _ => true, 0⟩) quads st).2.visited =
      st.visited ++ outcome ix test quads st.reported := by
  induction quads generalizing st with
  | nil => simp [whileAlive, outcome]
  | cons quad quads ih =>
    simp only [whileAlive, visitQuad_eq hst, outcome]
    cases firstNew ix quad st.reported with
    | none =>
      have hrest := ih { st with visited := st.visited ++ [(quad, [])] } hst
      simp [hrest]
    | some o =>
      cases htest : test o with
      | false => simp [htest]
      | true =>
        have hknows : Knows { st with
            count := st.count + 1, known := o.1 :: st.known, reported := st.reported ++ [o]
            visited := st.visited ++ [(quad, [o])] } := by
          intro id
          simp only [mem_cons, map_append, mem_append, hst id,
            map_cons, map_nil, not_mem_nil, or_false]
          exact or_comm
        have hrest := ih _ hknows
        simp [htest, hrest]

/-! ## When a sparse search keeps its promise -/

variable (ix test)

/-- Every quad is visited, in order; each gets an object if one that matches
and was not reported before overlaps it, and at most one; no object is reported
twice or without a match. -/
structure SparseOk (quads : List (Rect K)) (visited : List (Rect K × List (Bytes × Object G))) :
    Prop where
  all : visited.map Prod.fst = quads
  served : AtEach (fun reported v => reported ++ v.2) (fun reported v =>
      (∃ o ∈ ix.objs, ix.overlaps o v.1 = true ∧ test o = true ∧ o.1 ∉ reported.map Prod.fst) →
        v.2 ≠ []) [] visited
  one : ∀ v ∈ visited, v.2.length ≤ 1
  nodup : ((visited.flatMap Prod.snd).map Prod.fst).Nodup
  sound : ∀ v ∈ visited, ∀ o ∈ v.2, o ∈ ix.objs ∧ ix.overlaps o v.1 = true ∧ test o = true

/-- The first new object of each quad matches; only in the last quad it need
not, if no new object there does. -/
def Clear : List (Rect K) → List (Bytes × Object G) → Prop
  | [], _ => True
  | quad :: quads, reported =>
    match firstNew ix quad reported with
    | none => Clear quads reported
    | some o =>
      if test o then Clear quads (reported ++ [o])
      else quads = [] ∧ ∀ o ∈ ix.search quad, test o = true → o.1 ∈ reported.map Prod.fst

instance decidableClear : ∀ quads reported, Decidable (Clear ix test quads reported)
  | [], _ => isTrue trivial
  | quad :: quads, reported =>
    match hnew : firstNew ix quad reported with
    | none =>
      have := decidableClear quads reported
      decidable_of_iff (Clear ix test quads reported) (by rw [Clear, hnew])
    | some o =>
      have := decidableClear quads (reported ++ [o])
      decidable_of_iff (if test o then Clear ix test quads (reported ++ [o])
          else quads = [] ∧ ∀ o ∈ ix.search quad, test o = true → o.1 ∈ reported.map Prod.fst)
        (by rw [Clear, hnew])

variable {ix test}

theorem mem_search_iff {quad : Rect K} {o : Bytes × Object G} :
    o ∈ ix.search quad ↔ o ∈ ix.objs ∧ ix.overlaps o quad = true := by
  rw [(ix.search_perm quad).mem_iff, mem_filter]

/-- The two promises that a search can break. -/
theorem outcome_iff_clear (reported : List (Bytes × Object G)) :
    ((outcome ix test quads reported).map Prod.fst = quads ∧
      AtEach (fun reported v => reported ++ v.2) (fun reported v =>
        (∃ o ∈ ix.objs, ix.overlaps o v.1 = true ∧ test o = true ∧ o.1 ∉ reported.map Prod.fst) →
          v.2 ≠ []) reported (outcome ix test quads reported)) ↔
      Clear ix test quads reported := by
  induction quads generalizing reported with
  | nil => exact iff_of_true ⟨rfl, atEach_nil⟩ trivial
  | cons quad quads ih =>
    rw [outcome, Clear]
    cases hnew : firstNew ix quad reported with
    | none =>
      have hnone : ∀ o ∈ ix.search quad, o.1 ∈ reported.map Prod.fst := by
        simpa [firstNew] using hnew
      simp only [map_cons, cons.injEq, true_and, atEach_cons, append_nil, ← ih reported]
      constructor
      · rintro ⟨hall, -, hserved⟩
        exact ⟨hall, hserved⟩
      · rintro ⟨hall, hserved⟩
        refine ⟨hall, ?_, hserved⟩
        rintro ⟨o, ho, hover, -, hfresh⟩
        exact absurd (hnone o (mem_search_iff.mpr ⟨ho, hover⟩)) hfresh
    | some o =>
      simp only
      cases htest : test o with
      | true =>
        simp only [if_true, map_cons, cons.injEq, true_and, atEach_cons, ← ih (reported ++ [o])]
        constructor
        · rintro ⟨hall, -, hserved⟩
          exact ⟨hall, hserved⟩
        · rintro ⟨hall, hserved⟩
          exact ⟨hall, fun _ => cons_ne_nil _ _, hserved⟩
      | false =>
        simp only [Bool.false_eq_true, if_false, map_cons, map_nil, cons.injEq,
          true_and, atEach_cons, ne_eq, not_true_eq_false, imp_false]
        constructor
        · rintro ⟨hall, hserved, -⟩
          refine ⟨hall.symm, ?_⟩
          intro o' ho' hmatch
          by_contra hfresh
          exact hserved ⟨o', (mem_search_iff.mp ho').1, (mem_search_iff.mp ho').2, hmatch, hfresh⟩
        · rintro ⟨hall, hserved⟩
          refine ⟨hall.symm, ?_, atEach_nil⟩
          rintro ⟨o', ho', hover, hmatch, hfresh⟩
          exact hfresh (hserved o' (mem_search_iff.mpr ⟨ho', hover⟩) hmatch)

variable (ix test)

/-- The promises that no search breaks. -/
theorem outcome_sound (reported : List (Bytes × Object G)) :
    (∀ v ∈ outcome ix test quads reported, v.2.length ≤ 1 ∧
      ∀ o ∈ v.2, o ∈ ix.objs ∧ ix.overlaps o v.1 = true ∧ test o = true) ∧
    (((outcome ix test quads reported).flatMap Prod.snd).map Prod.fst).Nodup ∧
    (∀ o ∈ (outcome ix test quads reported).flatMap Prod.snd, o.1 ∉ reported.map Prod.fst) := by
  induction quads generalizing reported with
  | nil => simp [outcome]
  | cons quad quads ih =>
    rw [outcome]
    cases hnew : firstNew ix quad reported with
    | none =>
      obtain ⟨heach, hnodup, hfresh⟩ := ih reported
      refine ⟨?_, by simpa using hnodup, by simpa using hfresh⟩
      intro v hv
      rcases mem_cons.mp hv with rfl | hv
      · simp
      · exact heach v hv
    | some o =>
      simp only
      cases htest : test o with
      | false => simp
      | true =>
        obtain ⟨heach, hnodup, hfresh⟩ := ih (reported ++ [o])
        have hmem : o ∈ ix.search quad := mem_of_find?_eq_some hnew
        have ho : o.1 ∉ reported.map Prod.fst := by
          simpa using find?_some hnew
        simp only [if_true, flatMap_cons, singleton_append, map_cons, nodup_cons]
        refine ⟨?_, ⟨?_, hnodup⟩, ?_⟩
        · intro v hv
          rcases mem_cons.mp hv with rfl | hv
          · refine ⟨le_rfl, ?_⟩
            intro o' ho'
            rw [mem_singleton.mp ho']
            exact ⟨(mem_search_iff.mp hmem).1, (mem_search_iff.mp hmem).2, htest⟩
          · exact heach v hv
        · intro hdup
          obtain ⟨o', ho', heq⟩ := mem_map.mp hdup
          exact hfresh o' ho' (by simp [heq])
        · intro o' ho'
          rcases mem_cons.mp ho' with rfl | ho'
          · exact ho
          · intro hrep
            exact hfresh o' ho' (by rw [map_append]; exact mem_append_left _ hrep)

theorem sparseOk_outcome_iff :
    SparseOk ix test quads (outcome ix test quads []) ↔ Clear ix test quads [] := by
  rw [← outcome_iff_clear]
  obtain ⟨heach, hnodup, -⟩ := outcome_sound ix test quads []
  constructor
  · intro hok
    exact ⟨hok.all, hok.served⟩
  · rintro ⟨hall, hserved⟩
    exact ⟨hall, hserved, fun v hv => (heach v hv).1, hnodup, fun v hv => (heach v hv).2⟩

variable {A : Type*} [Add K] [Sub K] (half : K → K)

theorem areaSearch_visited (ix : SpatialIndex G K) (test : Bytes × Object G → Bool) (rect : Rect K)
    {sparse : Nat} (hsparse : 1 ≤ sparse) :
    (areaSearch half ix ⟨test, fun _ => true, 0⟩ rect sparse).2.visited =
      outcome ix test (quadsAt half sparse rect) [] := by
  have hknows : Knows ({} : SparseState G K) := by
    intro id
    simp
  rw [areaSearch, if_pos (by omega), geoSparse, geoSparseInner_eq]
  exact visits_eq_outcome _ _ hknows

/-- A sparse search keeps its promise exactly if the first new object of every
quad matches, the last quad apart. -/
theorem sparse_iff (lib : AreaLib G A K) (ix : SpatialIndex G K) (area : A) (sparse : Nat)
    (hsparse : 1 ≤ sparse) :
    (quadsAt half sparse (lib.rect area)).length = 4 ^ sparse ∧
      (SparseOk ix (fun o => lib.within o.2.geo area) (quadsAt half sparse (lib.rect area))
          (Within half lib ix area sparse).2.visited ↔
        Clear ix (fun o => lib.within o.2.geo area) (quadsAt half sparse (lib.rect area)) []) ∧
      (SparseOk ix (fun o => lib.intersects o.2.geo area) (quadsAt half sparse (lib.rect area))
          (Intersects half lib ix area sparse).2.visited ↔
        Clear ix (fun o => lib.intersects o.2.geo area)
          (quadsAt half sparse (lib.rect area)) []) := by
  refine ⟨length_quadsAt half sparse _, ?_, ?_⟩
  · rw [Within, areaSearch_visited half ix _ _ hsparse]
    exact sparseOk_outcome_iff _ _ _
  · rw [Intersects, areaSearch_visited half ix _ _ hsparse]
    exact sparseOk_outcome_iff _ _ _

end

/-- Points, and a triangle in the lower left half of its rectangle. -/
def triangleLib : AreaLib (Int × Int) Unit Int where
  rect := fun _ => ⟨0, 0, 4, 4⟩
  within := fun
    | .spatial p, _ => p.1 + p.2 ≤ 4
    | .string _, _ => false
  intersects := fun
    | .spatial p, _ => p.1 + p.2 ≤ 4
    | .string _, _ => false

/-- An index that lists the points in the order of the list. -/
def pointIndex (points : List (Bytes × Int × Int)) (h : (points.map Prod.fst).Nodup) :
    SpatialIndex (Int × Int) Int :=
  let objs := points.map fun p => (p.1, ⟨.spatial p.2, 0, OrdMap.empty⟩)
  let overlaps := fun (o : Bytes × Object (Int × Int)) (rect : Rect Int) =>
    match o.2.geo with
    | .spatial p =>
      decide (rect.minX ≤ p.1 ∧ p.1 ≤ rect.maxX ∧ rect.minY ≤ p.2 ∧ p.2 ≤ rect.maxY)
    | .string _ => false
  { objs := objs, overlaps := overlaps
    search := fun rect => objs.filter fun o => overlaps o rect
    ids_nodup := by simpa [objs, Function.comp_def] using h
    search_perm := fun _ => List.Perm.refl _ }

theorem sparse_iff_triangle :
    1 ≤ 1 ∧
    SparseOk (pointIndex [(lit "a", 1, 1), (lit "b", 1, 3)] (by decide))
      (fun o => triangleLib.within o.2.geo ()) (quadsAt (· / 2) 1 ⟨0, 0, 4, 4⟩)
      (Within (· / 2) triangleLib (pointIndex [(lit "a", 1, 1), (lit "b", 1, 3)] (by decide)) ()
        1).2.visited :=
  ⟨le_rfl, (sparse_iff (· / 2) triangleLib _ () 1 le_rfl).2.1.mpr (by decide +kernel)⟩

/-- A point beyond the diagonal ends the search in the second of the four
quads, and the point of the triangle is not found. -/
theorem sparse_misses :
    let ix := pointIndex [(lit "a", 1, 1), (lit "b", 3, 3)] (by decide)
    let visited := (Within (· / 2) triangleLib ix () 1).2.visited
    let without := (Within (· / 2) triangleLib ix () 0).2.reported
    visited = [(⟨0, 2, 2, 4⟩, []), (⟨2, 2, 4, 4⟩, [])] ∧
    without.map Prod.fst = [lit "a"] ∧
    ¬ SparseOk ix (fun o => triangleLib.within o.2.geo ()) (quadsAt (· / 2) 1 ⟨0, 0, 4, 4⟩)
      visited := by
  refine ⟨by decide +kernel, by decide +kernel, ?_⟩
  intro hok
  have hall := hok.all
  revert hall
  decide +kernel

end SpatialDb.Server
