import SpatialDb.Lib.Slab
import SpatialDb.Server.Fence
import SpatialDb.Spatial.Geometry

/-!
# The geofence manager

Model of `cpp/spatial/fence/geofence.cpp`, with coordinates in an ordered field.
`test` compares where an object was and where it is now, for each fence of its
collection.  The pairs of the unordered map come in any order; the callback gets
the matches that are returned.

The events have the names of the Go server's notifications.  `moveEvents` says
what these mean there: a move to the inside, a move to the outside, and a move
between two places outside whose segment meets the area.
-/

namespace SpatialDb.Spatial

open Lib List OrdMap

/-! ## Segments -/

section Segment

variable {K : Type*} [Field K] [LinearOrder K]

/-- The point that is `t` of the way from `p` to `q`. -/
def Point.toward (p q : Point K) (t : K) : Point K :=
  ⟨p.lat + t * (q.lat - p.lat), p.lon + t * (q.lon - p.lon)⟩

/-- The straight segment from `p` to `q` has a point in the box. -/
def BBox.SegmentMeets (b : BBox K) (p q : Point K) : Prop :=
  ∃ t, (0 ≤ t ∧ t ≤ 1) ∧ b.contains (p.toward q t) = true

theorem BBox.segmentMeets_iff [IsStrictOrderedRing K] (b : BBox K) (p q : Point K) :
    b.SegmentMeets p q ↔
      max (slab b.minLat b.maxLat p.lat q.lat).1 (slab b.minLon b.maxLon p.lon q.lon).1 ≤
        min (slab b.minLat b.maxLat p.lat q.lat).2 (slab b.minLon b.maxLon p.lon q.lon).2 := by
  rw [← exists_mem_slabs_iff]
  exact exists_congr fun t => and_congr_right fun _ => BBox.contains_iff

instance [IsStrictOrderedRing K] (b : BBox K) (p q : Point K) : Decidable (b.SegmentMeets p q) :=
  decidable_of_iff _ (b.segmentMeets_iff p q).symm

end Segment

namespace GeoFence

/-! ## Model -/

inductive FenceEvent where
  | enter
  | exit
  | cross
  deriving DecidableEq

inductive FenceType where
  | circle
  | polygon
  | bbox
  deriving DecidableEq

structure Fence (K : Type*) where
  id : Bytes
  collection : Bytes
  type : FenceType
  circle : Circle K
  polygon : List (Point K)
  bbox : BBox K
  detectEvents : List Bytes

structure FenceMatch (K : Type*) where
  fenceId : Bytes
  objectId : Bytes
  event : FenceEvent
  point : Point K
  distanceKm : K
  deriving DecidableEq

/-- `GeoFenceManager`: the fences by their ids. -/
structure GeoFenceManager (K : Type*) where
  fences : OrdMap Bytes (Fence K)

/-- The names that `test` looks for in `detect_events`. -/
def FenceEvent.name : FenceEvent → Bytes
  | enter => lit "enter"
  | exit => lit "exit"
  | cross => lit "cross"

def classifyTransition (wasInside isInside : Bool) : FenceEvent :=
  if !wasInside && isInside then .enter
  else if wasInside && !isInside then .exit
  else .cross

namespace GeoFenceManager

variable {K : Type*} (m : GeoFenceManager K)

/-- `addFence`, which always returns true. -/
def addFence (fence : Fence K) : GeoFenceManager K :=
  ⟨m.fences.set fence.id fence⟩

def hasFence (id : Bytes) : Bool := (m.fences.get? id).isSome

def removeFence (id : Bytes) : Bool × GeoFenceManager K :=
  (m.hasFence id, ⟨m.fences.delete id⟩)

end GeoFenceManager

section Test

variable {K : Type*} [Field K] [LinearOrder K] (haversineDistance : Point K → Point K → K)

/-- `geometry::pointInPolygon`: each vertex with the one before it, and the last
one before the first. -/
def pointInPolygon (p : Point K) (vertices : List (Point K)) : Bool :=
  let rec go (vj : Point K) (inside : Bool) : List (Point K) → Bool
    | [] => inside
    | vi :: rest =>
      let cond1 := decide (vi.lon > p.lon) != decide (vj.lon > p.lon)
      let cond2 := decide
        (p.lat < (vj.lat - vi.lat) * (p.lon - vi.lon) / (vj.lon - vi.lon) + vi.lat)
      go vi (if cond1 && cond2 then !inside else inside) rest
  if vertices.length < 3 then false
  else go (vertices.getLastD p) false vertices

def pointInFence (f : Fence K) (p : Point K) : Bool :=
  match f.type with
  | .circle => circleContainsPoint haversineDistance f.circle p
  | .polygon => pointInPolygon p f.polygon
  | .bbox => f.bbox.contains p

/-- One round of `test`'s loop. -/
def testFence (objectId : Bytes) (prevPos newPos : Point K) (collection : Bytes)
    (entry : Bytes × Fence K) : Option (FenceMatch K) :=
  let (id, fence) := entry
  if !fence.collection.isEmpty && fence.collection ≠ collection then none
  else
    let wasInside := pointInFence haversineDistance fence prevPos
    let isInside := pointInFence haversineDistance fence newPos
    if wasInside == isInside && !isInside then none
    else
      let event := classifyTransition wasInside isInside
      if !(fence.detectEvents.isEmpty || event.name ∈ fence.detectEvents) then none
      else
        some {
          fenceId := id
          objectId := objectId
          event := event
          point := newPos
          distanceKm :=
            if fence.type = .circle then haversineDistance fence.circle.center newPos else 0 }

variable (pairs : List (Bytes × Fence K))

/-- `test`, with the pairs of `fences_` as the loop meets them. -/
def test (objectId : Bytes) (prevPos newPos : Point K)
    (collection : Bytes) : List (FenceMatch K) :=
  pairs.filterMap (testFence haversineDistance objectId prevPos newPos collection)

/-- The events that are reported for the fence `id`. -/
def reported (id objectId : Bytes) (prevPos newPos : Point K)
    (collection : Bytes) : List FenceEvent :=
  ((test haversineDistance pairs objectId prevPos newPos collection).filter
    fun m => m.fenceId = id).map FenceMatch.event

end Test

/-! ## What the events mean -/

section Meaning

variable {K : Type} [Field K] [LinearOrder K] [IsStrictOrderedRing K]

/-- The events of a move, for a box. -/
def moveEvents (b : BBox K) (prevPos newPos : Point K) : List FenceEvent :=
  match b.contains prevPos, b.contains newPos with
  | false, true => [.enter]
  | true, false => [.exit]
  | false, false => if b.SegmentMeets prevPos newPos then [.cross] else []
  | true, true => []

variable {G A R M : Type}

/-- Enter, exit and cross among the notifications of the Go server. -/
def goEvent : Server.FenceMsg G M → Option FenceEvent
  | .object _ .enter _ _ _ => some .enter
  | .object _ .exit _ _ _ => some .exit
  | .object _ .cross _ _ _ => some .cross
  | _ => none

/-- The objects are points and the area is a box. -/
structure ReadsBox (flib : Server.FenceLib G A R M K) (place : G → Point K) (area : A)
    (b : BBox K) : Prop where
  within : ∀ g, flib.within (.spatial g) area = b.contains (place g)
  intersects : ∀ g, flib.intersects (.spatial g) area = b.contains (place g)
  line : ∀ g g', flib.lineIntersects (flib.center (.spatial g)) (flib.center (.spatial g')) area =
    true ↔ b.SegmentMeets (place g) (place g')

/-- A fence without DETECT, WHERE, MATCH and COMMANDS that writes its objects. -/
structure Unfiltered (fence : Server.Fence G A R) (cmd : Server.FenceCmd) (area : A) : Prop where
  area : fence.area = .static cmd area
  detect : fence.detect = none
  filters : fence.filters = {}
  globs : fence.globs = []
  accept : fence.accept = []
  output : fence.output ≠ .count

/-- The details of a SET that moves an object. -/
def moveDetails (key id : Bytes) (old o : Server.Object G) : Server.Details G :=
  { command := lit "set", key := key, obj := some (id, o), old := some old, updated := true }

/-- The position of an object that is a point. -/
def PointAt (place : G → Point K) (o : Server.Object G) (p : Point K) : Prop :=
  ∃ g, o.geo = .spatial g ∧ place g = p

variable {flib : Server.FenceLib G A R M K} {place : G → Point K} {area : A} {b : BBox K}
variable {fence : Server.Fence G A R} {cmd : Server.FenceCmd} {old o : Server.Object G}
variable {prevPos newPos : Point K}

/-- What the events are made from. -/
def moveDetect (b : BBox K) (prevPos newPos : Point K) : Server.Detect :=
  match b.contains prevPos, b.contains newPos with
  | false, true => .enter
  | true, false => .exit
  | false, false => if b.SegmentMeets prevPos newPos then .cross else .outside
  | true, true => .inside

omit [IsStrictOrderedRing K] in
theorem ReadsBox.fenceMatchObject_eq (hbox : ReadsBox flib place area b)
    (ho : PointAt place o newPos) :
    Server.fenceMatchObject flib cmd area (some o) = b.contains newPos := by
  obtain ⟨g, hgeo, rfl⟩ := ho
  unfold Server.fenceMatchObject
  dsimp only
  rw [hgeo]
  cases cmd with
  | nearby => exact hbox.intersects g
  | within => exact hbox.within g
  | intersects => exact hbox.intersects g

omit [LinearOrder K] [IsStrictOrderedRing K] [Field K] in
theorem Unfiltered.testObject (h : Unfiltered fence cmd area) (x : Server.Item G) :
    fence.testObject x = true ∧ fence.fieldMatch x = true := by
  simp [Server.Fence.testObject, Server.multiGlobMatch, Server.Fence.fieldMatch, h.globs,
    h.filters, Server.fieldMatch, Server.evalMatch]

theorem ReadsBox.staticDetect_eq (hbox : ReadsBox flib place area b)
    (h : Unfiltered fence cmd area) (id : Bytes) (hold : PointAt place old prevPos)
    (ho : PointAt place o newPos) :
    Server.staticDetect flib fence cmd area (lit "set") id (some old) o =
      some (moveDetect b prevPos newPos) := by
  have hset : lit "set" ≠ lit "fset" := by decide
  have hline : Server.FenceLib.lineIntersects flib (flib.center old.geo) (flib.center o.geo) area =
      true ↔ b.SegmentMeets prevPos newPos := by
    obtain ⟨g, hgeo, rfl⟩ := hold
    obtain ⟨g', hgeo', rfl⟩ := ho
    rw [hgeo, hgeo']
    exact hbox.line g g'
  unfold Server.staticDetect moveDetect
  simp only [hbox.fenceMatchObject_eq hold, hbox.fenceMatchObject_eq ho, (h.testObject _).1,
    (h.testObject _).2, Option.any_some, Bool.and_true]
  cases b.contains prevPos with
  | true => cases b.contains newPos <;> rfl
  | false =>
    cases b.contains newPos with
    | true => simp [hset]
    | false => by_cases hmeets : b.SegmentMeets prevPos newPos <;> simp [hset, hline, hmeets]

/-- **The Go server reports the events of the move for a fence that is a box.** -/
theorem goEvents_box (hbox : ReadsBox flib place area b) (h : Unfiltered fence cmd area)
    (hook key id : Bytes) (hold : PointAt place old prevPos) (ho : PointAt place o newPos) :
    (Server.FenceMatch flib hook fence (moveDetails key id old o)).filterMap goEvent =
      moveEvents b prevPos newPos := by
  have hwants : ∀ detect, fence.wants detect = true := by
    intro detect
    rw [Server.Fence.wants, h.detect]
  have hspatial : o.geo.isSpatial = true := by
    obtain ⟨g, hgeo, -⟩ := ho
    rw [hgeo]
    rfl
  have hset : lit "set" ≠ lit "fset" ∧ lit "set" ≠ lit "del" ∧ lit "set" ≠ lit "drop" := by decide
  have hglobs : Server.multiGlobMatch fence.globs id = true := by
    simp [Server.multiGlobMatch, h.globs]
  unfold Server.FenceMatch Server.fenceMatch moveDetails
  simp only [h.accept, length_nil, if_true, if_neg hset.2.2, hglobs, hspatial, Bool.not_true,
    Bool.false_eq_true, if_false, hset.1, hset.2.1, false_and, h.area,
    hbox.staticDetect_eq h id hold ho, Server.settle, hwants]
  unfold Server.detectMsgs moveDetect moveEvents
  rw [if_neg h.output]
  cases b.contains prevPos with
  | true => cases b.contains newPos <;> simp [goEvent, hwants]
  | false =>
    cases b.contains newPos with
    | true => simp [goEvent, hwants]
    | false =>
      by_cases hmeets : b.SegmentMeets prevPos newPos
      · simp [goEvent, hwants, hmeets]
      · simp [goEvent, hmeets]

end Meaning

/-! ## What is reported -/

section Reported

variable {K : Type} [Field K] [LinearOrder K] {haversineDistance : Point K → Point K → K}
variable {objectId collection : Bytes} {prevPos newPos : Point K}

/-- The match of a round is about its fence and the two places. -/
theorem match_of_testFence {entry : Bytes × Fence K} {r : FenceMatch K}
    (h : testFence haversineDistance objectId prevPos newPos collection entry = some r) :
    r.fenceId = entry.1 ∧
      r.event = classifyTransition (pointInFence haversineDistance entry.2 prevPos)
        (pointInFence haversineDistance entry.2 newPos) := by
  unfold testFence at h
  dsimp only at h
  split at h
  · cases h
  split at h
  · cases h
  split at h
  · cases h
  · cases h
    exact ⟨rfl, rfl⟩

/-- The matches of one fence come from its own round. -/
theorem filter_test (pairs : List (Bytes × Fence K)) (id : Bytes) :
    (test haversineDistance pairs objectId prevPos newPos collection).filter
        (fun r => r.fenceId = id) =
      test haversineDistance (pairs.filter fun entry => entry.1 = id) objectId prevPos newPos
        collection := by
  unfold test
  induction pairs with
  | nil => rfl
  | cons entry pairs ih =>
    rw [filterMap_cons]
    cases hentry : testFence haversineDistance objectId prevPos newPos collection entry with
    | none =>
      rw [ih, filter_cons]
      split
      · rw [filterMap_cons_none hentry]
      · rfl
    | some r =>
      have hid := (match_of_testFence hentry).1
      by_cases heq : entry.1 = id
      · rw [filter_cons_of_pos (by simp [hid, heq]), ih,
          filter_cons_of_pos (by simp [heq]), filterMap_cons_some hentry]
      · rw [filter_cons_of_neg (by simp [hid, heq]), ih, filter_cons_of_neg (by simp [heq])]

theorem reported_eq {m : GeoFenceManager K} {pairs : List (Bytes × Fence K)}
    (hpairs : pairs.Perm m.fences.entries) {id : Bytes} {f : Fence K}
    (hget : m.fences.get? id = some f) :
    reported haversineDistance pairs id objectId prevPos newPos collection =
      ((testFence haversineDistance objectId prevPos newPos collection (id, f)).map
        FenceMatch.event).toList := by
  have hone : m.fences.entries.filter (fun entry => entry.1 = id) = [(id, f)] := by
    refine filter_entries_eq (pairwise_singleton _ _) ?_
    rintro ⟨id', f'⟩
    rw [mem_entries_iff, mem_singleton, decide_eq_true_iff]
    constructor
    · rintro ⟨⟩
      exact ⟨hget, rfl⟩
    · rintro ⟨hget', rfl⟩
      rw [hget] at hget'
      cases hget'
      rfl
  have hpairs' := (hpairs.filter fun entry => decide (entry.1 = id)).trans (.of_eq hone)
  unfold reported
  rw [filter_test, perm_singleton.mp hpairs', test]
  cases hentry : testFence haversineDistance objectId prevPos newPos collection (id, f) with
  | none => rw [filterMap_cons_none hentry]; rfl
  | some r => rw [filterMap_cons_some hentry]; rfl

/-- A box fence that takes the collection and has no detect filter. -/
structure BoxFence (f : Fence K) (collection : Bytes) : Prop where
  type : f.type = .bbox
  detectEvents : f.detectEvents = []
  collection : f.collection = [] ∨ f.collection = collection

theorem BoxFence.testFence_event {f : Fence K} (h : BoxFence f collection) (id : Bytes) :
    (testFence haversineDistance objectId prevPos newPos collection (id, f)).map
        FenceMatch.event =
      match f.bbox.contains prevPos, f.bbox.contains newPos with
      | false, true => some .enter
      | true, false => some .exit
      | false, false => none
      | true, true => some .cross := by
  have hcol : (!f.collection.isEmpty && decide (f.collection ≠ collection)) = false := by
    rcases h.collection with hcol | hcol <;> simp [hcol]
  unfold testFence pointInFence
  simp only [hcol, h.type, h.detectEvents, isEmpty_nil, Bool.true_or, Bool.not_true,
    Bool.false_eq_true, if_false]
  cases f.bbox.contains prevPos <;> cases f.bbox.contains newPos <;> rfl

end Reported

section Compare

variable {K : Type} [Field K] [LinearOrder K] [IsStrictOrderedRing K]
variable (haversineDistance : Point K → Point K → K)

/-- **For every box fence without a detect filter and every move, the Go server
reports the events of the move, and `test` reports the same if and only if the
object was or is outside, and does not pass the box between two places outside.** -/
theorem reported_iff {m : GeoFenceManager K} {pairs : List (Bytes × Fence K)}
    (hpairs : pairs.Perm m.fences.entries) {id collection : Bytes} {f : Fence K}
    (hget : m.fences.get? id = some f) (hf : BoxFence f collection) (objectId : Bytes)
    (prevPos newPos : Point K) {G A R M : Type} {flib : Server.FenceLib G A R M K}
    {place : G → Point K} {area : A} (hbox : ReadsBox flib place area f.bbox)
    {fence : Server.Fence G A R} {cmd : Server.FenceCmd} (hfence : Unfiltered fence cmd area)
    (hook key : Bytes) {old o : Server.Object G} (hold : PointAt place old prevPos)
    (ho : PointAt place o newPos) :
    (Server.FenceMatch flib hook fence (moveDetails key objectId old o)).filterMap goEvent =
        moveEvents f.bbox prevPos newPos ∧
      (reported haversineDistance pairs id objectId prevPos newPos collection =
          moveEvents f.bbox prevPos newPos ↔
        ¬ (f.bbox.contains prevPos = true ∧ f.bbox.contains newPos = true) ∧
          ¬ (f.bbox.contains prevPos = false ∧ f.bbox.contains newPos = false ∧
            f.bbox.SegmentMeets prevPos newPos)) := by
  refine ⟨goEvents_box hbox hfence hook key objectId hold ho, ?_⟩
  rw [reported_eq hpairs hget, hf.testFence_event, moveEvents]
  cases f.bbox.contains prevPos with
  | true => cases f.bbox.contains newPos <;> simp
  | false =>
    cases f.bbox.contains newPos with
    | true => simp
    | false => by_cases hmeets : f.bbox.SegmentMeets prevPos newPos <;> simp [hmeets]

/-! A yard of two degrees by two, in the manager and in the Go server. -/

def yardBox : BBox ℚ := ⟨0, 0, 2, 2⟩

def yard : Fence ℚ := ⟨lit "yard", [], .bbox, ⟨⟨0, 0⟩, 0⟩, [], yardBox, []⟩

def yardManager : GeoFenceManager ℚ := GeoFenceManager.addFence ⟨empty⟩ yard

/-- Points and boxes with exact coordinates. -/
def boxFenceLib : Server.FenceLib (Point ℚ) (BBox ℚ) Unit Unit ℚ where
  rect b := ⟨b.minLon, b.minLat, b.maxLon, b.maxLat⟩
  within
    | .spatial p, b => b.contains p
    | .string _, _ => false
  intersects
    | .spatial p, b => b.contains p
    | .string _, _ => false
  objRect
    | .spatial p => ⟨p.lon, p.lat, p.lon, p.lat⟩
    | .string _ => ⟨0, 0, 0, 0⟩
  center
    | .spatial p => (p.lat, p.lon)
    | .string _ => (0, 0)
  lineIntersects p q b := decide (b.SegmentMeets ⟨p.1, p.2⟩ ⟨q.1, q.2⟩)
  fenceMatchRoam _ _ _ := ([], [])

theorem boxFenceLib_readsBox (b : BBox ℚ) : ReadsBox boxFenceLib id b b where
  within _ := rfl
  intersects _ := rfl
  line _ _ := decide_eq_true_iff

def pointObject (p : Point ℚ) : Server.Object (Point ℚ) := ⟨.spatial p, 0, .empty⟩

/-- A move into the yard. -/
theorem reported_iff_enter :
    (Server.FenceMatch boxFenceLib [] { key := lit "fleet", area := .static .within yardBox }
        (moveDetails (lit "fleet") (lit "truck") (pointObject ⟨5, 5⟩)
          (pointObject ⟨1, 1⟩))).filterMap goEvent = [.enter] ∧
      reported (fun _ _ => 0) yardManager.fences.entries (lit "yard") (lit "truck") ⟨5, 5⟩ ⟨1, 1⟩
        (lit "fleet") = [.enter] := by
  have hevents : moveEvents yardBox ⟨5, 5⟩ ⟨1, 1⟩ = [.enter] := by decide +kernel
  have hboth := reported_iff (fun _ _ => 0) (.refl yardManager.fences.entries)
    (show yardManager.fences.get? (lit "yard") = some yard by rfl)
    (⟨rfl, rfl, .inl rfl⟩ : BoxFence yard (lit "fleet")) (lit "truck") ⟨5, 5⟩ ⟨1, 1⟩
    (boxFenceLib_readsBox yardBox)
    (⟨rfl, rfl, rfl, rfl, rfl, by decide⟩ : Unfiltered
      ({ key := lit "fleet", area := .static .within yardBox } :
        Server.Fence (Point ℚ) (BBox ℚ) Unit) .within yardBox)
    [] (lit "fleet") (⟨⟨5, 5⟩, rfl, rfl⟩ : PointAt id (pointObject ⟨5, 5⟩) ⟨5, 5⟩)
    (⟨⟨1, 1⟩, rfl, rfl⟩ : PointAt id (pointObject ⟨1, 1⟩) ⟨1, 1⟩)
  rw [← hevents]
  exact ⟨hboth.1, hboth.2.mpr (by decide +kernel)⟩

/-- A move within the yard is reported as a crossing, and a move across it is
not reported. -/
theorem reported_wrong_cross :
    let events := fun prevPos newPos =>
      reported (fun _ _ => 0) yardManager.fences.entries (lit "yard") (lit "truck") prevPos newPos
        (lit "fleet")
    events ⟨1, 1⟩ ⟨1, 2⟩ = [.cross] ∧ moveEvents yardBox ⟨1, 1⟩ ⟨1, 2⟩ = [] ∧
      events ⟨1, -1⟩ ⟨1, 3⟩ = [] ∧ moveEvents yardBox ⟨1, -1⟩ ⟨1, 3⟩ = [.cross] := by
  decide +kernel

end Compare

end GeoFence

end SpatialDb.Spatial
