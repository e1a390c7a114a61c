import SpatialDb.Lib.SwapRemove
import SpatialDb.Server.Fence

/-!
# Roaming fences

Model of `fenceMatchNearbys` and `fenceMatchRoam` of
`internal/legacy/server/fence.go`.  A roaming fence looks for the objects around
a moving object: those that intersect a rectangle around it, have a matching id
and are near enough.  What was around the old position and is not around the
new one is far away now.

The radius test of `fenceMatchNearbys` measures the distance of an object from
itself.  It never skips an object, and the corners of the rectangle count as
near.
-/

namespace SpatialDb.Server

open Lib List OrdMap

section Model

variable {G M K : Type}

/-- `roamSwitches`, as far as the matching reads it. -/
structure RoamSwitches (M : Type) where
  key : Bytes
  id : Bytes
  pattern : Bool
  meters : M

structure RoamMatch (G M : Type) where
  id : Bytes
  obj : Geometry G
  meters : M

/-- What the matching takes from the geometry libraries: the distance of two
objects, the rectangle around the center of an object, and the relation of an
object and a rectangle. -/
structure RoamLib (G M K : Type) where
  distance : Geometry G → Geometry G → M
  rectFromCenter : Geometry G → M → Rect K
  intersects : Geometry G → Rect K → Bool

variable (lib : RoamLib G M K)

/-- The test of an id, for an id or a pattern. -/
def RoamSwitches.idMatch (roam : RoamSwitches M) (id : Bytes) : Bool :=
  if roam.pattern then Glob.wildcardMatch roam.id id = .ok true else roam.id = id

/-- The loop of `fenceMatchRoam`: what is in both lists leaves the old one, and
the new one too if dwelling is not allowed. -/
def roamLoop (nodwell : Bool) (i : Nat) (oldNearbys newNearbys : List (RoamMatch G M)) :
    List (RoamMatch G M) × List (RoamMatch G M) :=
  if h : i < oldNearbys.length then
    match newNearbys.findIdx? fun m => m.id = (oldNearbys.get ⟨i, h⟩).id with
    | some j =>
      roamLoop nodwell i (swapRemove oldNearbys i)
        (if nodwell then swapRemove newNearbys j else newNearbys)
    | none => roamLoop nodwell (i + 1) oldNearbys newNearbys
  else (oldNearbys, newNearbys)
termination_by oldNearbys.length - i
decreasing_by
  · have hlen := (swapRemove_perm h).length_eq
    rw [List.length_eraseIdx_of_lt h] at hlen
    omega
  · omega

variable [LinearOrder M]

/-- The callback of `fenceMatchNearbys`; it never ends the search. -/
def nearbyCallback (roam : RoamSwitches M) (obj : Item G) (nearbys : List (RoamMatch G M))
    (o : Item G) : List (RoamMatch G M) :=
  if o.1 = obj.1 then nearbys
  else
    let meters := lib.distance o.2.geo o.2.geo
    if meters > roam.meters then nearbys
    else if !roam.idMatch o.1 then nearbys
    else nearbys ++ [⟨o.1, o.2.geo, lib.distance obj.2.geo o.2.geo⟩]

/-- `fenceMatchNearbys`, over the spatial indexes of the collections. -/
def fenceMatchNearbys (cols : Bytes → Option (SpatialIndex G K)) (roam : RoamSwitches M) :
    Option (Item G) → List (RoamMatch G M)
  | none => []
  | some obj =>
    match cols roam.key with
    | none => []
    | some ix =>
      let rect := lib.rectFromCenter obj.2.geo roam.meters
      let found := geoSearch ⟨fun o => lib.intersects o.2.geo rect, fun _ => true, 0⟩
        (ix.search rect) ({} : SparseState G K)
      found.2.reported.foldl (nearbyCallback lib roam obj) []

def roamLess (a b : RoamMatch G M) : Bool :=
  if a.meters < b.meters then true
  else if a.meters > b.meters then false
  else a.id < b.id

variable (sort : StdSort (RoamMatch G M))

/-- `sortRoamMatches`; `sort.Slice` promises no order of equal elements. -/
def sortRoamMatches (found : List (RoamMatch G M)) : List (RoamMatch G M) :=
  sort.run roamLess found

/-- `fenceMatchRoam` from the two lists on: `nearbys` and `faraways`. -/
def roamLists (nodwell : Bool) (obj : Item G)
    (oldNearbys newNearbys : List (RoamMatch G M)) :
    List (RoamMatch G M) × List (RoamMatch G M) :=
  let (faraways, nearbys) := roamLoop nodwell 0 oldNearbys newNearbys
  let faraways := faraways.map fun m => { m with meters := lib.distance m.obj obj.2.geo }
  (sortRoamMatches sort nearbys, sortRoamMatches sort faraways)

def fenceMatchRoam (cols : Bytes → Option (SpatialIndex G K))
    (roam : RoamSwitches M) (nodwell : Bool) (obj : Item G) (old : Option (Item G)) :
    List (RoamMatch G M) × List (RoamMatch G M) :=
  roamLists lib sort nodwell obj (fenceMatchNearbys lib cols roam old)
    (fenceMatchNearbys lib cols roam (some obj))

variable {A R M' : Type} (flib : FenceLib G A R M' K) (cols : Bytes → Option (SpatialIndex G K))

/-- `fenceMatch` with `fenceMatchRoam`: a fence has its switches and whether
dwelling is not allowed; the old object has the id of the new one. -/
def roamFenceLib : FenceLib G A (RoamSwitches M × Bool) (RoamMatch G M) K :=
  { flib with
    fenceMatchRoam := fun roam obj old =>
      fenceMatchRoam lib sort cols roam.1 roam.2 obj (old.map fun o => (obj.1, o)) }

/-- A SET that passes the tests of a roaming fence is reported with every object
that is near, then with every one that is far away now. -/
theorem fenceMatch_roaming {fence : Fence G A (RoamSwitches M × Bool)}
    {roam : RoamSwitches M × Bool}
    (harea : fence.area = .roaming roam) (hwants : fence.wants .roam = true)
    (hout : fence.output ≠ .count) {d : Details G} (hset : d.command = lit "set") {obj : Item G}
    (hobj : d.obj = some obj) (hglobs : multiGlobMatch fence.globs obj.1 = true)
    (hspatial : obj.2.geo.isSpatial = true) (hook : Bytes) :
    let r := fenceMatchRoam lib sort cols roam.1 roam.2 obj (d.old.map fun o => (obj.1, o))
    fenceMatch (roamFenceLib lib sort flib cols) hook fence d =
      (r.1.map fun m => .roam (lit "set") hook d.key obj true m) ++
        r.2.map fun m => .roam (lit "set") hook d.key obj false m := by
  intro r
  have hr : (roamFenceLib lib sort flib cols).fenceMatchRoam roam (obj.1, obj.2) d.old = r := rfl
  rw [fenceMatch, hobj, hset, if_neg (by decide)]
  simp only [hglobs, hspatial, harea, hr, settle, hwants, detectMsgs, hout, hset, if_true, if_false,
    Bool.not_true, Bool.false_eq_true, true_and]
  rw [if_neg (by simp +decide), if_neg (by decide)]
  split
  · rename_i hnone
    rw [length_eq_zero_iff.mp hnone.1, length_eq_zero_iff.mp hnone.2]
    rfl
  · simp

end Model

/-! ## What is near -/

section Nearbys

variable {G M K : Type} (cols : Bytes → Option (SpatialIndex G K))

/-- The objects of a collection. -/
def objects (key : Bytes) : List (Item G) :=
  match cols key with
  | none => []
  | some ix => ix.objs

/-- The objects of a collection whose rectangles meet `rect`. -/
def meeting (key : Bytes) (rect : Rect K) : List (Item G) :=
  match cols key with
  | none => []
  | some ix => ix.objs.filter fun o => ix.overlaps o rect

variable {key : Bytes}

private theorem mem_objects_of_meeting {cols : Bytes → Option (SpatialIndex G K)} {rect : Rect K}
    {o : Item G} (h : o ∈ meeting cols key rect) : o ∈ objects cols key := by
  unfold meeting at h
  unfold objects
  cases hcol : cols key with
  | none => simp [hcol] at h
  | some ix =>
    simp only [hcol] at h
    exact mem_of_mem_filter h

/-- A search that nobody stops lists what passes the test. -/
theorem geoSearch_reported (test : Item G → Bool) (objs : List (Item G)) (st : SparseState G K) :
    (geoSearch ⟨test, fun _ => true, 0⟩ objs st).2.reported = st.reported ++ objs.filter test := by
  induction objs generalizing st with
  | nil => simp [geoSearch]
  | cons o objs ih =>
    cases htest : test o with
    | true => simp [geoSearch, htest, ih]
    | false => simp [geoSearch, htest, ih]

variable (lib : RoamLib G M K)

/-- The entry of an object. -/
def matchOf (obj o : Item G) : RoamMatch G M := ⟨o.1, o.2.geo, lib.distance obj.2.geo o.2.geo⟩

variable [LinearOrder M] (roam : RoamSwitches M)

/-- What the callback keeps. -/
def keeps (obj o : Item G) : Bool :=
  o.1 ≠ obj.1 && lib.distance o.2.geo o.2.geo ≤ roam.meters && roam.idMatch o.1

private theorem nearbyCallback_eq (obj : Item G) (nearbys : List (RoamMatch G M))
    (o : Item G) : nearbyCallback lib roam obj nearbys o =
      nearbys ++ if keeps lib roam obj o then [matchOf lib obj o] else [] := by
  unfold nearbyCallback keeps matchOf
  by_cases hid : o.1 = obj.1
  · simp [hid]
  by_cases hfar : lib.distance o.2.geo o.2.geo > roam.meters
  · simp [hid, hfar]
  cases hmatch : roam.idMatch o.1 with
  | true => simp [hid, not_lt.mp hfar]
  | false => simp [hid]

private theorem foldl_nearbyCallback (obj : Item G) (objs : List (Item G))
    (nearbys : List (RoamMatch G M)) : objs.foldl (nearbyCallback lib roam obj) nearbys =
      nearbys ++ (objs.filter (keeps lib roam obj)).map (matchOf lib obj) := by
  induction objs generalizing nearbys with
  | nil => simp
  | cons o objs ih =>
    rw [foldl_cons, ih, nearbyCallback_eq]
    cases hkeeps : keeps lib roam obj o with
    | true => simp [hkeeps]
    | false => simp [hkeeps]

variable {cols : Bytes → Option (SpatialIndex G K)} {roam : RoamSwitches M} {obj : Item G}

/-- An object is reported if it is found and kept. -/
theorem mem_fenceMatchNearbys {m : RoamMatch G M} :
    m ∈ fenceMatchNearbys lib cols roam (some obj) ↔
      ∃ o ∈ meeting cols roam.key (lib.rectFromCenter obj.2.geo roam.meters),
        lib.intersects o.2.geo (lib.rectFromCenter obj.2.geo roam.meters) = true ∧
        keeps lib roam obj o = true ∧ m = matchOf lib obj o := by
  unfold fenceMatchNearbys meeting
  cases hcol : cols roam.key with
  | none => simp
  | some ix =>
    have hmem := fun o => (ix.search_perm (lib.rectFromCenter obj.2.geo roam.meters)).mem_iff
      (a := o)
    simp only [geoSearch_reported, foldl_nearbyCallback, nil_append, mem_map, mem_filter, hmem]
    constructor
    · rintro ⟨o, ⟨⟨hfound, htest⟩, hkeeps⟩, rfl⟩
      exact ⟨o, hfound, htest, hkeeps, rfl⟩
    · rintro ⟨o, hfound, htest, hkeeps, rfl⟩
      exact ⟨o, ⟨⟨hfound, htest⟩, hkeeps⟩, rfl⟩

/-- What is asked of a distance. -/
structure RoamLib.Metric [Zero M] : Prop where
  self : ∀ g, lib.distance g g = 0
  nonneg : ∀ g g', 0 ≤ lib.distance g g'
  symm : ∀ g g', lib.distance g g' = lib.distance g' g

/-- An object of the fence's roaming collection is another one than `obj` of the
collection `key`, has a matching id, and is near enough. -/
structure Around (roam : RoamSwitches M) (key : Bytes) (obj o : Item G) : Prop where
  other : (roam.key, o.1) ≠ (key, obj.1)
  id : roam.idMatch o.1 = true
  near : lib.distance obj.2.geo o.2.geo ≤ roam.meters

variable (cols roam) in
/-- The objects around are reported, and no others. -/
structure NearbysOk (key : Bytes) (obj : Item G) : Prop where
  sound : ∀ m ∈ fenceMatchNearbys lib cols roam (some obj),
    ∃ o ∈ objects cols roam.key, m = matchOf lib obj o ∧ Around lib roam key obj o
  complete : ∀ o ∈ meeting cols roam.key (lib.rectFromCenter obj.2.geo roam.meters),
    Around lib roam key obj o → matchOf lib obj o ∈ fenceMatchNearbys lib cols roam (some obj)

variable [Zero M]

/-- A matching object is not in a corner of the rectangle; and if it is near
enough, it intersects the rectangle, and has not the id of the moving object
in another collection. -/
structure Fits (roam : RoamSwitches M) (key : Bytes) (obj o : Item G) : Prop where
  noCorner : 0 ≤ roam.meters → o.1 ≠ obj.1 →
    lib.intersects o.2.geo (lib.rectFromCenter obj.2.geo roam.meters) = true →
      lib.distance obj.2.geo o.2.geo ≤ roam.meters
  found : lib.distance obj.2.geo o.2.geo ≤ roam.meters → o.1 ≠ obj.1 →
    lib.intersects o.2.geo (lib.rectFromCenter obj.2.geo roam.meters) = true
  noTwin : lib.distance obj.2.geo o.2.geo ≤ roam.meters → o.1 = obj.1 → roam.key = key

/-- With a distance from itself of zero, the radius test keeps all or nothing. -/
theorem keeps_iff (h : lib.Metric) {o : Item G} :
    keeps lib roam obj o = true ↔ o.1 ≠ obj.1 ∧ 0 ≤ roam.meters ∧ roam.idMatch o.1 = true := by
  simp [keeps, h.self, and_assoc]

theorem NearbysOk.fits (h : lib.Metric) (hok : NearbysOk lib cols roam key obj) {o : Item G}
    (hmeet : o ∈ meeting cols roam.key (lib.rectFromCenter obj.2.geo roam.meters))
    (hid : roam.idMatch o.1 = true) : Fits lib roam key obj o := by
  refine ⟨fun hmeters hne htest => ?_, fun hnear hne => ?_, fun hnear heq => ?_⟩
  · have hkeeps := (keeps_iff lib h).mpr ⟨hne, hmeters, hid⟩
    have hmem := (mem_fenceMatchNearbys lib).mpr ⟨o, hmeet, htest, hkeeps, rfl⟩
    obtain ⟨o', -, heq, haround⟩ := hok.sound _ hmem
    have hdist : lib.distance obj.2.geo o.2.geo = lib.distance obj.2.geo o'.2.geo :=
      congrArg RoamMatch.meters heq
    rw [hdist]
    exact haround.near
  · have hother : (roam.key, o.1) ≠ (key, obj.1) := fun heq => hne (Prod.mk.inj heq).2
    have hmem := hok.complete o hmeet ⟨hother, hid, hnear⟩
    obtain ⟨o', -, htest, -, heq⟩ := (mem_fenceMatchNearbys lib).mp hmem
    have hgeo : o.2.geo = o'.2.geo := congrArg RoamMatch.obj heq
    rw [hgeo]
    exact htest
  · by_contra hkey
    have hother : (roam.key, o.1) ≠ (key, obj.1) := fun heq => hkey (Prod.mk.inj heq).1
    have hmem := hok.complete o hmeet ⟨hother, hid, hnear⟩
    obtain ⟨o', -, -, hkeeps, heq'⟩ := (mem_fenceMatchNearbys lib).mp hmem
    have hids : o.1 = o'.1 := congrArg RoamMatch.id heq'
    exact ((keeps_iff lib h).mp hkeeps).1 (hids.symm.trans heq)

private theorem nearbysOk_of_fits (h : lib.Metric)
    (hfits : ∀ o ∈ meeting cols roam.key (lib.rectFromCenter obj.2.geo roam.meters),
      roam.idMatch o.1 = true → Fits lib roam key obj o) : NearbysOk lib cols roam key obj := by
  constructor
  · intro m hm
    obtain ⟨o, hmeet, htest, hkeeps, rfl⟩ := (mem_fenceMatchNearbys lib).mp hm
    obtain ⟨hne, hmeters, hid⟩ := (keeps_iff lib h).mp hkeeps
    have hother : (roam.key, o.1) ≠ (key, obj.1) := fun heq => hne (Prod.mk.inj heq).2
    exact ⟨o, mem_objects_of_meeting hmeet, rfl, hother, hid,
      (hfits o hmeet hid).noCorner hmeters hne htest⟩
  · intro o hmeet haround
    have hfit := hfits o hmeet haround.id
    have hmeters : 0 ≤ roam.meters := (h.nonneg _ _).trans haround.near
    have hne : o.1 ≠ obj.1 := by
      intro heq
      exact haround.other (Prod.ext (hfit.noTwin haround.near heq) heq)
    exact (mem_fenceMatchNearbys lib).mpr ⟨o, hmeet, hfit.found haround.near hne,
      (keeps_iff lib h).mpr ⟨hne, hmeters, haround.id⟩, rfl⟩

/-- The objects around the moving one are reported, and no others, exactly if
each matching object that meets the rectangle fits. -/
theorem nearbys_iff (h : lib.Metric) (cols : Bytes → Option (SpatialIndex G K))
    (roam : RoamSwitches M) (key : Bytes) (obj : Item G) :
    NearbysOk lib cols roam key obj ↔
      ∀ o ∈ meeting cols roam.key (lib.rectFromCenter obj.2.geo roam.meters),
        roam.idMatch o.1 = true → Fits lib roam key obj o :=
  ⟨fun hok _ hmeet hid => hok.fits lib h hmeet hid, nearbysOk_of_fits lib h⟩

end Nearbys

/-! ### A small instance

Points of a grid, with the sum of the differences as the distance. -/

def gridLib : RoamLib (Int × Int) Int Int where
  distance
    | .spatial p, .spatial q => |p.1 - q.1| + |p.2 - q.2|
    | _, _ => 0
  rectFromCenter
    | .spatial p, meters => ⟨p.1 - meters, p.2 - meters, p.1 + meters, p.2 + meters⟩
    | .string _, _ => ⟨0, 0, 0, 0⟩
  intersects
    | .spatial p, rect => rect.minX ≤ p.1 && p.1 ≤ rect.maxX && rect.minY ≤ p.2 && p.2 ≤ rect.maxY
    | .string _, _ => false

private theorem gridLib_metric : gridLib.Metric where
  self g := by
    cases g with
    | spatial p => simp [gridLib]
    | string s => rfl
  nonneg g g' := by
    cases g <;> cases g' <;> simp [gridLib]
    exact Int.add_nonneg (abs_nonneg _) (abs_nonneg _)
  symm g g' := by
    cases g <;> cases g' <;> simp [gridLib]
    rw [abs_sub_comm, abs_sub_comm (Prod.snd _)]

/-- One collection, `pets`. -/
def petsAt (points : List (Bytes × Int × Int)) (h : (points.map Prod.fst).Nodup) :
    Bytes → Option (SpatialIndex (Int × Int) Int) :=
  fun key => if key = lit "pets" then some (pointIndex points h) else none

/-- All pets, one step away at most. -/
def petsRoam : RoamSwitches Int := ⟨lit "pets", lit "*", true, 1⟩

/-- The moving object, of another collection. -/
def truck : Item (Int × Int) := (lit "truck", ⟨.spatial (0, 0), 0, empty⟩)

theorem nearbys_iff_beside :
    gridLib.Metric ∧
    NearbysOk gridLib (petsAt [(lit "cat", 0, 1)] (by decide)) petsRoam (lit "fleet") truck := by
  refine ⟨gridLib_metric, (nearbys_iff gridLib gridLib_metric _ _ _ _).mpr ?_⟩
  have hmeet : meeting (petsAt [(lit "cat", 0, 1)] (by decide)) petsRoam.key
      (gridLib.rectFromCenter truck.2.geo petsRoam.meters) =
        [(lit "cat", ⟨.spatial (0, 1), 0, empty⟩)] := by
    decide +kernel
  intro o ho _
  rw [hmeet, mem_singleton] at ho
  subst ho
  exact ⟨fun _ _ _ => by decide, fun _ _ => by decide, fun _ heq => absurd heq (by decide)⟩

/-- A cat in a corner of the rectangle is reported, two steps away; a pet with the
id of the truck is not, right beside it. -/
theorem nearbys_corner :
    (fenceMatchNearbys gridLib (petsAt [(lit "cat", 1, 1), (lit "truck", 0, 1)] (by decide))
      petsRoam (some truck)).map (fun m => (m.id, m.meters)) = [(lit "cat", 2)] ∧
    ¬ NearbysOk gridLib (petsAt [(lit "cat", 1, 1), (lit "truck", 0, 1)] (by decide)) petsRoam
      (lit "fleet") truck := by
  refine ⟨by decide +kernel, ?_⟩
  intro hok
  have hmeet : (lit "cat", ⟨.spatial (1, 1), 0, empty⟩) ∈
      meeting (petsAt [(lit "cat", 1, 1), (lit "truck", 0, 1)] (by decide)) petsRoam.key
        (gridLib.rectFromCenter truck.2.geo petsRoam.meters) := by
    decide +kernel
  have hfits := hok.fits gridLib gridLib_metric hmeet (by decide +kernel)
  have hnear := hfits.noCorner (by decide) (by decide) (by decide)
  revert hnear
  decide

/-! ## What has come near and what is far away -/

section Lists

variable {G M K : Type}

/-- The matches whose ids are not in `other`. -/
def without (l other : List (RoamMatch G M)) : List (RoamMatch G M) :=
  l.filter fun m => m.id ∉ other.map RoamMatch.id

variable {l other : List (RoamMatch G M)} {x : RoamMatch G M}

private theorem without_congr {other' : List (RoamMatch G M)}
    (h : ∀ m ∈ l, m.id ∈ other.map RoamMatch.id ↔ m.id ∈ other'.map RoamMatch.id) :
    without l other = without l other' :=
  filter_congr fun m hm => by simp only [h m hm]

private theorem without_cons_of_mem (h : x.id ∈ other.map RoamMatch.id) :
    without (x :: l) other = without l other :=
  filter_cons_of_neg (by simpa using h)

private theorem without_cons_of_notMem (h : x.id ∉ other.map RoamMatch.id) :
    without (x :: l) other = x :: without l other :=
  filter_cons_of_pos (by simpa using h)

private theorem without_without (l : List (RoamMatch G M)) (x : RoamMatch G M)
    (other : List (RoamMatch G M)) :
    without (without l [x]) other = without l (x :: other) := by
  rw [without, without, without, filter_filter]
  refine filter_congr fun m _ => ?_
  simp only [map_cons, map_nil, mem_cons, not_mem_nil, or_false, not_or, Bool.decide_and]
  exact Bool.and_comm _ _

private theorem swapRemove_without (hids : (l.map RoamMatch.id).Nodup) {j : Nat}
    (hj : l.findIdx? (fun m => m.id = x.id) = some j) :
    (swapRemove l j).Perm (without l [x]) := by
  obtain ⟨hlt, hid, -⟩ := findIdx?_eq_some_iff_getElem.mp hj
  have hid' : l[j].id = x.id := of_decide_eq_true hid
  have hsplit : l = l.take j ++ l[j] :: l.drop (j + 1) := by simp
  refine (swapRemove_perm hlt).trans (Perm.of_eq ?_)
  rw [eraseIdx_eq_take_drop_succ]
  generalize l[j] = y at hsplit hid'
  generalize l.take j = before at hsplit
  generalize l.drop (j + 1) = after at hsplit
  subst hsplit
  -- no other match has the id
  have hother : ∀ m ∈ before ++ after, m.id ∉ [x].map RoamMatch.id := by
    intro m hm
    have hnodup := (perm_middle.map RoamMatch.id).nodup_iff.mp hids
    rw [map_cons, nodup_cons] at hnodup
    rw [map_singleton, mem_singleton, ← hid']
    exact fun heq => hnodup.1 (heq ▸ mem_map_of_mem hm)
  have hkeep : ∀ m ∈ before ++ after, decide (m.id ∉ [x].map RoamMatch.id) = true :=
    fun m hm => decide_eq_true (hother m hm)
  rw [without, filter_append, filter_cons_of_neg (by simp [hid']),
    ← filter_append, filter_eq_self.mpr hkeep]

private theorem nodup_swapRemove (hids : (l.map RoamMatch.id).Nodup) {i : Nat} (hi : i < l.length) :
    ((swapRemove l i).map RoamMatch.id).Nodup := by
  rw [((swapRemove_perm hi).map RoamMatch.id).nodup_iff]
  exact hids.sublist ((eraseIdx_sublist l i).map RoamMatch.id)

/-- The ids that are left, looked up for matches without the removed id. -/
theorem mem_ids_of_removed {nodwell : Bool} {new removed b : List (RoamMatch G M)}
    (hremoved : removed.Perm (without new [x])) (hx : x.id ∉ b.map RoamMatch.id) :
    ∀ m ∈ b, m.id ∈ (if nodwell then removed else new).map RoamMatch.id ↔
      m.id ∈ new.map RoamMatch.id := by
  intro m hm
  cases nodwell with
  | false => exact Iff.rfl
  | true =>
    have hne : m.id ≠ x.id := fun heq => hx (heq ▸ mem_map_of_mem hm)
    rw [if_pos rfl, (hremoved.map RoamMatch.id).mem_iff]
    simp only [without, mem_map, mem_filter, map_singleton, mem_singleton,
      decide_not, Bool.not_eq_true', decide_eq_false_iff_not]
    constructor
    · rintro ⟨m', ⟨hmem, -⟩, hid⟩
      exact ⟨m', hmem, hid⟩
    · rintro ⟨m', hmem, hid⟩
      exact ⟨m', ⟨hmem, hid ▸ hne⟩, hid⟩

/-- The first `i` old matches are not new ones; the others are still to be looked
for.  An old match that is found makes room for the last one, which is then
looked for at the same place. -/
theorem roamLoop_spec (nodwell : Bool) (i : Nat) {old new : List (RoamMatch G M)}
    (hold : (old.map RoamMatch.id).Nodup) (hnew : (new.map RoamMatch.id).Nodup) :
    (roamLoop nodwell i old new).1.Perm (old.take i ++ without (old.drop i) new) ∧
      (roamLoop nodwell i old new).2.Perm (if nodwell then without new (old.drop i) else new) := by
  fun_induction roamLoop nodwell i old new with
  | case1 i old new hi j hfind ih =>
    simp only [dite_eq_ite] at ih
    obtain ⟨hj, hid, -⟩ := findIdx?_eq_some_iff_getElem.mp hfind
    have hdrop : old.drop i = old.get ⟨i, hi⟩ :: old.drop (i + 1) := by simp
    have hb := drop_swapRemove_perm hi
    have hold' := nodup_swapRemove hold hi
    have htail := hold.sublist ((drop_sublist i old).map RoamMatch.id)
    rw [hdrop, map_cons, nodup_cons] at htail
    have hxnew : (old.get ⟨i, hi⟩).id ∈ new.map RoamMatch.id := by
      rw [← of_decide_eq_true hid]
      exact mem_map_of_mem (getElem_mem hj)
    have hremoved := swapRemove_without hnew hfind
    generalize old.get ⟨i, hi⟩ = x at hdrop htail hxnew hremoved
    have hmemb : ∀ id, id ∈ ((swapRemove old i).drop i).map RoamMatch.id ↔
        id ∈ (old.drop (i + 1)).map RoamMatch.id := fun id => (hb.map RoamMatch.id).mem_iff
    have hxb := mt (hmemb x.id).mp htail.1
    have hnew' : ((if nodwell then swapRemove new j else new).map RoamMatch.id).Nodup := by
      cases nodwell with
      | false => exact hnew
      | true => exact nodup_swapRemove hnew hj
    obtain ⟨hfst, hsnd⟩ := ih hold' hnew'
    rw [take_swapRemove hi] at hfst
    rw [hdrop, without_cons_of_mem hxnew]
    refine ⟨hfst.trans (Perm.append_left _ ?_), hsnd.trans ?_⟩
    · rw [without_congr (mem_ids_of_removed hremoved hxb)]
      exact hb.filter _
    · cases nodwell with
      | false => exact Perm.refl _
      | true =>
        refine (hremoved.filter _).trans (Perm.of_eq ?_)
        rw [← without, without_without]
        exact without_congr fun m _ => by simp only [map_cons, mem_cons, hmemb]
  | case2 i old new hi hfind ih =>
    have hdrop : old.drop i = old.get ⟨i, hi⟩ :: old.drop (i + 1) := by simp
    have htake : old.take (i + 1) = old.take i ++ [old.get ⟨i, hi⟩] := by simp
    have hnot : (old.get ⟨i, hi⟩).id ∉ new.map RoamMatch.id := by
      intro hmem
      obtain ⟨m, hm, hid⟩ := mem_map.mp hmem
      have hnone := findIdx?_eq_none_iff.mp hfind m hm
      exact of_decide_eq_false hnone hid
    obtain ⟨hfst, hsnd⟩ := ih hold hnew
    rw [hdrop, without_cons_of_notMem hnot]
    constructor
    · rw [htake, append_assoc] at hfst
      exact hfst
    · refine hsnd.trans (Perm.of_eq ?_)
      refine congrArg (fun l => if nodwell then l else new) (without_congr fun m hm => ?_)
      rw [map_cons, mem_cons]
      refine ⟨.inr, fun h => h.resolve_left fun heq => hnot ?_⟩
      rw [← heq]
      exact mem_map_of_mem hm
  | case3 i old new hi =>
    have hle := not_lt.mp hi
    rw [take_of_length_le hle, drop_of_length_le hle]
    have hall : without new [] = new := filter_eq_self.mpr fun m _ => rfl
    rw [hall, ite_self]
    exact ⟨Perm.of_eq (append_nil old).symm, Perm.refl _⟩

variable [LinearOrder M]

private theorem roamLess_iff (a b : RoamMatch G M) :
    roamLess a b = true ↔ toLex (a.meters, a.id) < toLex (b.meters, b.id) := by
  rw [roamLess, Prod.Lex.toLex_lt_toLex]
  rcases lt_trichotomy a.meters b.meters with hlt | heq | hgt
  · simp [hlt]
  · simp [heq]
  · simp [hgt, hgt.not_gt, hgt.ne']

/-- Matches with ids of their own are sorted without ties. -/
theorem sortRoamMatches_spec (sort : StdSort (RoamMatch G M)) (hids : (l.map RoamMatch.id).Nodup) :
    (sortRoamMatches sort l).Perm l ∧
      (sortRoamMatches sort l).Pairwise fun a b =>
        toLex (a.meters, a.id) < toLex (b.meters, b.id) := by
  obtain ⟨hperm, hsorted⟩ := sort.run_of_key (fun a b : RoamMatch G M => roamLess_iff a b) l
  refine ⟨hperm, ?_⟩
  have hnodup : ((sort.run roamLess l).map RoamMatch.id).Nodup :=
    ((hperm.map RoamMatch.id).nodup_iff).mpr hids
  have hne : (sort.run roamLess l).Pairwise fun a b => a.id ≠ b.id := pairwise_map.mp hnodup
  exact (hsorted.and hne).imp fun hab =>
    lt_of_le_of_ne hab.1 fun heq => hab.2 (Prod.mk.inj (toLex.injective heq)).2

/-- Faraway are the old matches that are not new ones, at their distance from the
new position; near are the new ones, without the old ones if dwelling is not
allowed.  Both lists are sorted by distance and id. -/
theorem fenceMatchRoam_lists (lib : RoamLib G M K) (sort : StdSort (RoamMatch G M))
    (nodwell : Bool) (obj : Item G) {old new : List (RoamMatch G M)}
    (hold : (old.map RoamMatch.id).Nodup) (hnew : (new.map RoamMatch.id).Nodup) :
    let r := roamLists lib sort nodwell obj old new
    r.2.Perm ((old.filter fun m => m.id ∉ new.map RoamMatch.id).map fun m =>
      { m with meters := lib.distance m.obj obj.2.geo }) ∧
    r.1.Perm (if nodwell then new.filter fun m => m.id ∉ old.map RoamMatch.id else new) ∧
    (r.1.Pairwise fun a b => toLex (a.meters, a.id) < toLex (b.meters, b.id)) ∧
    r.2.Pairwise fun a b => toLex (a.meters, a.id) < toLex (b.meters, b.id) := by
  obtain ⟨hfar, hnear⟩ := roamLoop_spec nodwell 0 hold hnew
  rw [take_zero, nil_append, drop_zero] at hfar
  rw [drop_zero] at hnear
  have hfarids : (((roamLoop nodwell 0 old new).1.map fun m =>
      { m with meters := lib.distance m.obj obj.2.geo }).map RoamMatch.id).Nodup := by
    rw [map_map]
    change ((roamLoop nodwell 0 old new).1.map RoamMatch.id).Nodup
    rw [(hfar.map RoamMatch.id).nodup_iff]
    exact hold.sublist (filter_sublist.map RoamMatch.id)
  have hnearids : ((roamLoop nodwell 0 old new).2.map RoamMatch.id).Nodup := by
    rw [(hnear.map RoamMatch.id).nodup_iff]
    cases nodwell with
    | false => exact hnew
    | true => exact hnew.sublist (filter_sublist.map RoamMatch.id)
  obtain ⟨hfarperm, hfarsorted⟩ := sortRoamMatches_spec sort hfarids
  obtain ⟨hnearperm, hnearsorted⟩ := sortRoamMatches_spec sort hnearids
  exact ⟨hfarperm.trans (hfar.map _), hnearperm.trans hnear, hnearsorted, hfarsorted⟩

end Lists

/-- A cat and a dog were near. -/
def wereNear : List (RoamMatch (Int × Int) Int) :=
  [⟨lit "cat", .spatial (0, 1), 5⟩, ⟨lit "dog", .spatial (3, 4), 6⟩]

/-- A fox and the cat are. -/
def areNear : List (RoamMatch (Int × Int) Int) :=
  [⟨lit "fox", .spatial (1, 0), 1⟩, ⟨lit "cat", .spatial (0, 1), 1⟩]

theorem fenceMatchRoam_lists_pets :
    ((roamLists gridLib StdSort.stable true truck wereNear areNear).2.map
      fun m => (m.id, m.meters)) = [(lit "dog", 7)] ∧
    (roamLists gridLib StdSort.stable true truck wereNear areNear).1.Perm
      [⟨lit "fox", .spatial (1, 0), 1⟩] := by
  have hold : (wereNear.map RoamMatch.id).Nodup := by decide
  have hnew : (areNear.map RoamMatch.id).Nodup := by decide
  have hlists := fenceMatchRoam_lists gridLib StdSort.stable true truck hold hnew
  refine ⟨?_, hlists.2.1⟩
  have hone := perm_singleton.mp hlists.1
  rw [hone]
  decide

end SpatialDb.Server
