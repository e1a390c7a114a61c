import SpatialDb.Lib.Bytes

/-!
# Points, boxes and index entries

Model of `cpp/include/geometry.h` and `cpp/include/index.h`.  Coordinates are
of any type; boxes are compared in a linear order.
-/

namespace SpatialDb.Spatial

open Lib

/-- `geometry::Point`. -/
structure Point (T : Type*) where
  lat : T
  lon : T
  deriving DecidableEq

/-- `index::IndexEntry`. -/
structure IndexEntry (T : Type*) where
  id : Bytes
  point : Point T
  collection : Bytes
  timestamp : UInt64
  deriving DecidableEq

/-- `geometry::BBox`. -/
structure BBox (T : Type*) where
  minLat : T
  minLon : T
  maxLat : T
  maxLon : T
  deriving DecidableEq

namespace BBox

variable {T : Type*} [LinearOrder T]

def contains (b : BBox T) (p : Point T) : Bool :=
  p.lat ≥ b.minLat && p.lat ≤ b.maxLat && p.lon ≥ b.minLon && p.lon ≤ b.maxLon

def intersects (b other : BBox T) : Bool :=
  !(other.minLat > b.maxLat || other.maxLat < b.minLat ||
    other.minLon > b.maxLon || other.maxLon < b.minLon)

variable {p : Point T}

theorem contains_iff {b : BBox T} :
    b.contains p = true ↔
      (b.minLat ≤ p.lat ∧ p.lat ≤ b.maxLat) ∧ b.minLon ≤ p.lon ∧ p.lon ≤ b.maxLon := by
  simp [contains, and_assoc]

theorem intersects_of_contains {b other : BBox T} (h : b.contains p = true)
    (h' : other.contains p = true) : b.intersects other = true := by
  obtain ⟨⟨h1, h2⟩, h3, h4⟩ := contains_iff.mp h
  obtain ⟨⟨h5, h6⟩, h7, h8⟩ := contains_iff.mp h'
  simp [intersects, le_trans h5 h2, le_trans h1 h6, le_trans h7 h4, le_trans h3 h8]

/-- `b` lies inside `outer`. -/
structure Within (b outer : BBox T) : Prop where
  minLat : outer.minLat ≤ b.minLat
  maxLat : b.maxLat ≤ outer.maxLat
  minLon : outer.minLon ≤ b.minLon
  maxLon : b.maxLon ≤ outer.maxLon

theorem Within.refl (b : BBox T) : b.Within b := ⟨le_rfl, le_rfl, le_rfl, le_rfl⟩

theorem Within.trans {a b c : BBox T} (h : a.Within b) (h' : b.Within c) : a.Within c :=
  ⟨h'.minLat.trans h.minLat, h.maxLat.trans h'.maxLat, h'.minLon.trans h.minLon,
    h.maxLon.trans h'.maxLon⟩

theorem Within.contains {b outer : BBox T} (h : b.Within outer)
    (hp : b.contains p = true) : outer.contains p = true := by
  obtain ⟨⟨h1, h2⟩, h3, h4⟩ := contains_iff.mp hp
  exact contains_iff.mpr ⟨⟨h.minLat.trans h1, h2.trans h.maxLat⟩, h.minLon.trans h3,
    h4.trans h.maxLon⟩

/-- The box of a single point. -/
def ofPoint (p : Point T) : BBox T := ⟨p.lat, p.lon, p.lat, p.lon⟩

theorem contains_iff_within {b : BBox T} : b.contains p = true ↔ (ofPoint p).Within b := by
  rw [contains_iff]
  exact ⟨fun h => ⟨h.1.1, h.1.2, h.2.1, h.2.2⟩, fun h => ⟨⟨h.minLat, h.maxLat⟩, h.minLon, h.maxLon⟩⟩

variable (m b : BBox T)

/-- One round of `updateMBR`'s loop: the smallest box around both. -/
def extend : BBox T :=
  ⟨min m.minLat b.minLat, min m.minLon b.minLon, max m.maxLat b.maxLat, max m.maxLon b.maxLon⟩

theorem within_extend_left : m.Within (m.extend b) :=
  ⟨min_le_left _ _, le_max_left _ _, min_le_left _ _, le_max_left _ _⟩

theorem within_extend_right : b.Within (m.extend b) :=
  ⟨min_le_right _ _, le_max_right _ _, min_le_right _ _, le_max_right _ _⟩

/-- The loop of `updateMBR` ends with a box around the start and every item. -/
theorem within_foldl_extend (boxes : List (BBox T)) (start : BBox T) :
    start.Within (boxes.foldl extend start) ∧
      ∀ b ∈ boxes, b.Within (boxes.foldl extend start) := by
  induction boxes generalizing start with
  | nil => exact ⟨Within.refl _, by simp⟩
  | cons x boxes ih =>
    obtain ⟨hstart, hboxes⟩ := ih (start.extend x)
    refine ⟨(within_extend_left start x).trans hstart, ?_⟩
    intro b hb
    rcases List.mem_cons.mp hb with rfl | hb
    · exact (within_extend_right start b).trans hstart
    · exact hboxes b hb

/-- No box around the start and every item is smaller. -/
theorem foldl_extend_within {boxes : List (BBox T)} {start outer : BBox T}
    (hstart : start.Within outer) (hboxes : ∀ b ∈ boxes, b.Within outer) :
    (boxes.foldl extend start).Within outer := by
  induction boxes generalizing start with
  | nil => exact hstart
  | cons x boxes ih =>
    have hx := hboxes x List.mem_cons_self
    refine ih ?_ (List.forall_mem_cons.mp hboxes).2
    exact ⟨le_min hstart.minLat hx.minLat, max_le hstart.maxLat hx.maxLat,
      le_min hstart.minLon hx.minLon, max_le hstart.maxLon hx.maxLon⟩

/-- `b` is the bounding box of the entries: it contains them, and lies inside
every box that does. -/
structure Bounds (b : BBox T) (entries : List (IndexEntry T)) : Prop where
  contains : ∀ e ∈ entries, b.contains e.point = true
  least : ∀ outer : BBox T, (∀ e ∈ entries, outer.contains e.point = true) → b.Within outer

end BBox

/-- `geometry::Circle`; the radius is a distance in kilometres. -/
structure Circle (T : Type*) where
  center : Point T
  radiusKm : T

/-- `geometry::circleContainsPoint`, with the great-circle distance a
parameter. -/
def circleContainsPoint {T : Type*} [LinearOrder T] (haversineDistance : Point T → Point T → T)
    (c : Circle T) (p : Point T) : Bool :=
  haversineDistance c.center p ≤ c.radiusKm

/-! ## Searches -/

/-- The searches of `index::SpatialIndex`, on an index that does not change. -/
structure IndexView (T : Type*) where
  searchBBox : Bytes → BBox T → List (IndexEntry T)
  searchRadius : Bytes → Circle T → UInt64 → List (IndexEntry T)

variable {T : Type*} [LinearOrder T] (haversineDistance : Point T → Point T → T)

def inCircle (content : List (IndexEntry T)) (circle : Circle T) : List (IndexEntry T) :=
  content.filter fun e => circleContainsPoint haversineDistance circle e.point

/-- The index holds `content`, and a search of a circle returns as many
entries of it as it was asked for, whichever it meets first. -/
structure IndexView.Answers (ix : IndexView T) (content : Bytes → List (IndexEntry T)) : Prop where
  distinct : ∀ collection, (content collection).Nodup
  nodup : ∀ collection circle limit, (ix.searchRadius collection circle limit).Nodup
  subset : ∀ collection circle limit, ix.searchRadius collection circle limit ⊆
    inCircle haversineDistance (content collection) circle
  length : ∀ collection circle limit, (ix.searchRadius collection circle limit).length =
    min limit.toNat (inCircle haversineDistance (content collection) circle).length

variable {haversineDistance} {content : Bytes → List (IndexEntry T)}

/-- With room for all of them, all entries of the circle are returned. -/
theorem IndexView.Answers.perm {ix : IndexView T}
    (h : ix.Answers haversineDistance content) {collection : Bytes} {circle : Circle T}
    {limit : UInt64}
    (hroom : (inCircle haversineDistance (content collection) circle).length ≤ limit.toNat) :
    (ix.searchRadius collection circle limit).Perm
      (inCircle haversineDistance (content collection) circle) := by
  have hsub := (h.nodup collection circle limit).subperm (h.subset collection circle limit)
  refine hsub.perm_of_length_le ?_
  rw [h.length, Nat.min_eq_right hroom]

/-- An index that goes through the entries of a circle in a given order. -/
def IndexView.enumerate (haversineDistance : Point T → Point T → T)
    (order : Circle T → List (IndexEntry T) → List (IndexEntry T))
    (content : Bytes → List (IndexEntry T)) : IndexView T where
  searchBBox collection bbox := (content collection).filter fun e => bbox.contains e.point
  searchRadius collection circle limit :=
    (order circle (inCircle haversineDistance (content collection) circle)).take limit.toNat

theorem IndexView.enumerate_answers (hdistinct : ∀ collection, (content collection).Nodup)
    {order : Circle T → List (IndexEntry T) → List (IndexEntry T)}
    (horder : ∀ circle l, (order circle l).Perm l) :
    (IndexView.enumerate haversineDistance order content).Answers haversineDistance content where
  distinct := hdistinct
  nodup collection circle limit := by
    have hnodup := (horder circle _).nodup_iff.mpr ((hdistinct collection).filter
      fun e => circleContainsPoint haversineDistance circle e.point)
    exact hnodup.sublist (List.take_sublist _ _)
  subset collection circle limit :=
    fun _ he => (horder circle _).subset (List.mem_of_mem_take he)
  length collection circle limit := by
    rw [← (horder circle (inCircle haversineDistance (content collection) circle)).length_eq]
    exact List.length_take

end SpatialDb.Spatial
