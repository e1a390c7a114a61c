import SpatialDb.Lib.FloodFill
import SpatialDb.Lib.Rounding
import SpatialDb.Spatial.Geohash

/-!
# Neighbouring geohashes and the hashes of a box

Model of `neighbors` and `hashesForBBox` of `cpp/spatial/geohash.cpp`.  A
neighbour is found by moving the centre of a cell and encoding it again; beyond
the border of the world the encoder stays in the outermost cells.  The hashes of
a box are found by a flood fill from the cell of its centre.
-/

namespace SpatialDb.Spatial.Geohash

open Lib Cell List
open Lib.Bisect

/-! ## Model -/

section

variable (K : Type) [Add K] [Sub K] [Neg K] [Div K] [LE K] [DecidableLE K] [OfNat K 2]
  [OfNat K 90] [OfNat K 180]

variable {K} in
/-- The list that `neighbors` returns. -/
def around (box : BBox K) (prec : Nat) : List Bytes :=
  let latStep := box.maxLat - box.minLat
  let lonStep := box.maxLon - box.minLon
  let clat := (box.minLat + box.maxLat) / 2
  let clon := (box.minLon + box.maxLon) / 2
  [encode (clat + latStep) clon prec,
    encode (clat + latStep) (clon + lonStep) prec,
    encode clat (clon + lonStep) prec,
    encode (clat - latStep) (clon + lonStep) prec,
    encode (clat - latStep) clon prec,
    encode (clat - latStep) (clon - lonStep) prec,
    encode clat (clon - lonStep) prec,
    encode (clat + latStep) (clon - lonStep) prec]

def neighbors (hash : Bytes) : Except Bytes (List Bytes) := do
  let box : BBox K ← decodeBBox hash
  return around box hash.length

end

/-- The loop of `hashesForBBox`; `none` if it does not end in time. -/
def hashesLoop (bbox : BBox ℚ) :
    Nat → (q visited result : List Bytes) → Option (Except Bytes (List Bytes))
  | _, [], _, result => some (.ok result)
  | 0, _ :: _, _, _ => none
  | fuel + 1, h :: q, visited, result =>
    match decodeBBox h with
    | .error e => some (.error e)
    | .ok box =>
      if !box.intersects bbox then hashesLoop bbox fuel q visited result
      else
        match neighbors ℚ h with
        | .error e => some (.error e)
        | .ok nbs =>
          let s := nbs.foldl FloodFill.visit (q, visited)
          if (result ++ [h]).length > 5000 then some (.ok (result ++ [h]))
          else hashesLoop bbox fuel s.1 s.2 (result ++ [h])

def hashesForBBox (fuel : Nat) (bbox : BBox ℚ) (precision : Nat) :
    Option (Except Bytes (List Bytes)) :=
  let centerHash := encode ((bbox.minLat + bbox.maxLat) / 2) ((bbox.minLon + bbox.maxLon) / 2)
    precision
  hashesLoop bbox fuel [centerHash] [centerHash] []

/-! ## Neighbours in the grid -/

/-- The steps north and east, in the order of `neighbors`. -/
def compass : List (ℤ × ℤ) :=
  [(1, 0), (1, 1), (0, 1), (-1, 1), (-1, 0), (-1, -1), (0, -1), (1, -1)]

/-- The cell some steps away, but not beyond the outermost cells. -/
def Cell.step (c : Cell) (d : ℤ × ℤ) : Cell where
  level := c.level
  lon := min (c.lon + d.2).toNat (2 ^ ((c.level + 1) / 2) - 1)
  lat := min (c.lat + d.1).toNat (2 ^ (c.level / 2) - 1)
  lon_lt := by
    have hpos := Nat.two_pow_pos ((c.level + 1) / 2)
    omega
  lat_lt := by
    have hpos := Nat.two_pow_pos (c.level / 2)
    omega

/-- Moving the centre by whole cells. -/
theorem locate_step (c : Cell) (d : ℤ × ℤ) : Cell.locate c.level
      (c.centre.lat + d.1 * (c.halving.box.maxLat - c.halving.box.minLat))
      (c.centre.lon + d.2 * (c.halving.box.maxLon - c.halving.box.minLon)) = c.step d := by
  have hlat : c.centre.lat + d.1 * (c.halving.box.maxLat - c.halving.box.minLat) =
      latAt c.level (c.lat + 1 / 2 + d.1) := pos_add_width _ _ _ _ _ _
  have hlon : c.centre.lon + d.2 * (c.halving.box.maxLon - c.halving.box.minLon) =
      lonAt c.level (c.lon + 1 / 2 + d.2) := pos_add_width _ _ _ _ _ _
  rw [hlat, hlon]
  exact Cell.ext rfl (slot_shift (by norm_num) _ _ _) (slot_shift (by norm_num) _ _ _)

private theorem around_eq (c : Cell) (prec : Nat) :
    around c.halving.box prec = compass.map fun d =>
      encode (c.centre.lat + d.1 * (c.halving.box.maxLat - c.halving.box.minLat))
        (c.centre.lon + d.2 * (c.halving.box.maxLon - c.halving.box.minLon)) prec := by
  obtain ⟨hlat, hlon⟩ := c.midpoint_box
  simp [around, compass, hlat, hlon, sub_eq_add_neg]

/-- The hashes next to a hash. -/
def next (h : Bytes) : List Bytes := around (cell h).halving.box h.length

variable {h : Bytes}

private theorem neighbors_eq (hvalid : Valid h) : neighbors ℚ h = .ok (next h) := by
  rw [neighbors, decodeBBox_cell hvalid]
  rfl

theorem map_cell_next (h : Bytes) : (next h).map cell = compass.map (cell h).step := by
  rw [next, around_eq, map_map]
  refine map_congr_left fun d _ => ?_
  rw [Function.comp_apply, cell_encode, ← level_cell, locate_step]

theorem mem_next_spec {h h' : Bytes} (hmem : h' ∈ next h) : Valid h' ∧ h'.length = h.length := by
  rw [next, around_eq] at hmem
  obtain ⟨d, -, rfl⟩ := mem_map.mp hmem
  exact ⟨(encode_spec _ _ _).1, (encode_spec _ _ _).2.1⟩

/-- A hash is a neighbour if its cell is. -/
theorem mem_next {h h' : Bytes} (hvalid : Valid h') (hlen : h'.length = h.length) {d : ℤ × ℤ}
    (hd : d ∈ compass) (hcell : cell h' = (cell h).step d) : h' ∈ next h := by
  have hmem : cell h' ∈ (next h).map cell := by
    rw [map_cell_next, hcell]
    exact mem_map_of_mem hd
  obtain ⟨nb, hnb, heq⟩ := mem_map.mp hmem
  obtain ⟨hvalid', hlen'⟩ := mem_next_spec hnb
  rw [cell_injective hvalid hvalid' (hlen.trans hlen'.symm) heq.symm]
  exact hnb

/-! ## Doubles

For a hash of at most 18 characters every number that `neighbors` computes is a
double, so nothing is rounded. -/

section Doubles

variable {r : Rounding}

theorem fits_grid {n : ℕ} (q : ℤ) (a : ℕ) {x : ℚ} (ha : a ≤ 3) (hn : n ≤ 45)
    (hlow : -(2 ^ n + 2) ≤ q) (hhigh : q ≤ 2 ^ n + 2) (hx : x = 45 * q * 2 ^ a / 2 ^ n) :
    Fits x := by
  have hpow : (2 : ℤ) ^ n ≤ 2 ^ 45 := pow_le_pow_right₀ (by norm_num) hn
  refine ⟨45 * q, a, n, ?_, by omega, by omega, by push_cast; exact hx⟩
  rw [abs_le]
  omega

/-- The centre of an interval and those of the two next to it are exact. -/
structure Exact (x y : Double r) : Prop where
  mid : ((x + y) / 2).val = (x.val + y.val) / 2
  above : ((x + y) / 2 + (y - x)).val = (x.val + y.val) / 2 + (y.val - x.val)
  below : ((x + y) / 2 - (y - x)).val = (x.val + y.val) / 2 - (y.val - x.val)

theorem exact_grid (b : ℕ) {n i : ℕ} {x y : Double r} (hb : b ≤ 2) (hn : n ≤ 45) (hi : i < 2 ^ n)
    (hx : x.val = pos (-(45 * 2 ^ b : ℚ)) (45 * 2 ^ b) n i)
    (hy : y.val = pos (-(45 * 2 ^ b : ℚ)) (45 * 2 ^ b) n (i + 1)) : Exact x y := by
  have hlt : (i : ℤ) < 2 ^ n := by exact_mod_cast hi
  have htwo : (2 : Double r).val = 2 := Double.val_round ⟨2, 0, 0, by norm_num⟩
  have hpos : ∀ t : ℚ, pos (-(45 * 2 ^ b)) (45 * 2 ^ b) n t =
      45 * (2 * t - 2 ^ n) * 2 ^ b / 2 ^ n := by
    intro t
    unfold pos
    push_cast
    field_simp
    ring
  rw [hpos] at hx hy
  have hsum : (x + y).val = x.val + y.val :=
    Double.val_round (fits_grid (2 * i + 1 - 2 ^ n) (b + 1) (by omega) hn (by omega) (by omega)
      (by rw [hx, hy]; push_cast; ring))
  have hmid : ((x + y) / 2).val = (x.val + y.val) / 2 := by
    rw [← hsum, ← htwo]
    exact Double.val_round (fits_grid (2 * i + 1 - 2 ^ n) b (by omega) hn (by omega) (by omega)
      (by rw [hsum, htwo, hx, hy]; push_cast; ring))
  have hstep : (y - x).val = y.val - x.val :=
    Double.val_round (fits_grid 1 (b + 1) (by omega) hn (by omega) (by omega)
      (by rw [hx, hy]; push_cast; ring))
  refine ⟨hmid, ?_, ?_⟩
  · rw [← hmid, ← hstep]
    exact Double.val_round (fits_grid (2 * i + 3 - 2 ^ n) b (by omega) hn (by omega) (by omega)
      (by rw [hmid, hstep, hx, hy]; push_cast; ring))
  · rw [← hmid, ← hstep]
    exact Double.val_round (fits_grid (2 * i - 1 - 2 ^ n) b (by omega) hn (by omega) (by omega)
      (by rw [hmid, hstep, hx, hy]; push_cast; ring))

namespace Halving

def val (s : Halving (Double r)) : Halving ℚ :=
  ⟨s.latMin.val, s.latMax.val, s.lonMin.val, s.lonMax.val, s.useLon⟩

private theorem val_world : (world : Halving (Double r)).val = root.halving := by
  have hfits : ∀ m : ℤ, |m| ≤ 180 → Fits m := fun m hm =>
    ⟨m, 0, 0, hm.trans (by norm_num), by norm_num, by norm_num, by norm_num⟩
  have h90 : (90 : Double r).val = 90 := Double.val_round (hfits 90 (by decide))
  have h180 : (180 : Double r).val = 180 := Double.val_round (hfits 180 (by decide))
  have hsouth : (-90 : Double r).val = -90 := by
    show (Double.round (-(90 : Double r).val) : Double r).val = -90
    rw [h90]
    exact Double.val_round (hfits (-90) (by decide))
  have hwest : (-180 : Double r).val = -180 := by
    show (Double.round (-(180 : Double r).val) : Double r).val = -180
    rw [h180]
    exact Double.val_round (hfits (-180) (by decide))
  rw [halving_root, val, world, world, hsouth, hwest, h90, h180]

variable {s : Halving (Double r)} {c : Cell} (hs : s.val = c.halving) (hlevel : c.level ≤ 90)
include hs hlevel

theorem exact : Exact s.latMin s.latMax ∧ Exact s.lonMin s.lonMax := by
  have hlat : (90 : ℚ) = 45 * 2 ^ 1 := by norm_num
  have hlon : (180 : ℚ) = 45 * 2 ^ 2 := by norm_num
  have hsouth : s.latMin.val = latAt c.level c.lat := congrArg latMin hs
  have hnorth : s.latMax.val = latAt c.level (c.lat + 1) := congrArg latMax hs
  have hwest : s.lonMin.val = lonAt c.level c.lon := congrArg lonMin hs
  have heast : s.lonMax.val = lonAt c.level (c.lon + 1) := congrArg lonMax hs
  rw [latAt, hlat] at hsouth hnorth
  rw [lonAt, hlon] at hwest heast
  exact ⟨exact_grid 1 (by omega) (by omega) c.lat_lt hsouth hnorth,
    exact_grid 2 (by omega) (by omega) c.lon_lt hwest heast⟩

private theorem val_mid : s.mid.val = c.halving.mid := by
  obtain ⟨hlat, hlon⟩ := exact hs hlevel
  rw [← hs]
  unfold mid
  show (if s.useLon then _ else _ : Double r).val = if s.useLon then _ else _
  split
  · exact hlon.mid
  · exact hlat.mid

private theorem val_take (b : Bool) : (s.take b).val = (c.child b).halving := by
  have hmid := val_mid hs hlevel
  rw [← take_halving]
  unfold take
  rw [← hmid, ← hs]
  unfold val
  repeat' split
  all_goals rfl

end Halving

open Halving

private theorem val_foldl_take (bs : List Bool) {s : Halving (Double r)} {c : Cell}
    (hs : s.val = c.halving) (hlevel : c.level + bs.length ≤ 91) :
    (bs.foldl Halving.take s).val = (bs.foldl child c).halving := by
  induction bs generalizing s c with
  | nil => exact hs
  | cons b bs ih =>
    rw [length_cons] at hlevel
    exact ih (val_take hs (by omega) b) (by rw [level_child]; omega)

private theorem path_double (lat lon : Double r) (n : ℕ) {s : Halving (Double r)} {c : Cell}
    (hs : s.val = c.halving) (hlevel : c.level + n ≤ 91) :
    path lat lon n s = path lat.val lon.val n c.halving := by
  induction n generalizing s c with
  | zero => rfl
  | succ n ih =>
    have hupper : s.upper lat lon = c.halving.upper lat.val lon.val := by
      unfold upper
      rw [← val_mid hs (by omega), ← hs]
      rfl
    rw [path, path, hupper, take_halving, ih (val_take hs (by omega) _)]
    rw [level_child]
    omega

private theorem encode_double (lat lon : Double r) {k : ℕ} (hk : k ≤ 18) :
    encode lat lon k = encode lat.val lon.val k := by
  rw [encode_eq, encode_eq, path_double lat lon _ val_world, halving_root]
  show 0 + 5 * k ≤ 91
  omega

private theorem neighbors_double (r : Rounding) (hvalid : Valid h) (hlen : h.length ≤ 18) :
    neighbors (Double r) h = .ok (next h) := by
  have hs : ((hashBits h).foldl Halving.take (world : Halving (Double r))).val =
      (cell h).halving := by
    refine val_foldl_take _ val_world ?_
    rw [length_hashBits]
    show 0 + 5 * h.length ≤ 91
    omega
  rw [neighbors, decodeBBox_eq hvalid]
  generalize (hashBits h).foldl Halving.take (world : Halving (Double r)) = s at hs
  obtain ⟨hlat, hlon⟩ := Halving.exact hs (by rw [level_cell]; omega)
  show Except.ok (around s.box h.length) = .ok (next h)
  rw [next, ← hs]
  simp only [around, Halving.box, encode_double _ _ hlen, hlat.mid, hlat.above, hlat.below,
    hlon.mid, hlon.above, hlon.below]
  rfl

end Doubles

/-! ## Neighbours on the globe -/

/-- Longitudes beyond the 180 degree meridian come in on the other side. -/
def wrapLon (lon : ℚ) : ℚ :=
  if lon < -180 then lon + 360 else if lon ≥ 180 then lon - 360 else lon

/-- The box of the same size some steps away on the globe. -/
def adjacentBox (box : BBox ℚ) (d : ℤ × ℤ) : BBox ℚ :=
  let latStep := box.maxLat - box.minLat
  let lonStep := box.maxLon - box.minLon
  let minLon := wrapLon (box.minLon + d.2 * lonStep)
  ⟨box.minLat + d.1 * latStep, minLon, box.maxLat + d.1 * latStep, minLon + lonStep⟩

/-- The eight hashes around a hash on the globe, in the order of the compass. -/
structure GlobeNeighbors (h : Bytes) (box : BBox ℚ) (ns : List Bytes) : Prop where
  nodup : ns.Nodup
  not_self : h ∉ ns
  length : ∀ n ∈ ns, n.length = h.length
  adjacent : ns.map decodeBBox = compass.map fun d => .ok (adjacentBox box d)

private theorem compass_bounds : ∀ d ∈ compass,
    (-1 ≤ d.1 ∧ d.1 ≤ 1) ∧ (-1 ≤ d.2 ∧ d.2 ≤ 1) ∧ ¬ (d.1 = 0 ∧ d.2 = 0) := by
  decide

namespace Cell

/-- A cell that does not touch the border of the world. -/
structure Inner (c : Cell) : Prop where
  west : 0 < c.lon
  east : c.lon + 1 < 2 ^ ((c.level + 1) / 2)
  south : 0 < c.lat
  north : c.lat + 1 < 2 ^ (c.level / 2)

variable (c : Cell)

private theorem west_iff : -180 < c.halving.box.minLon ↔ 0 < c.lon :=
  left_lt_pos (by norm_num)

private theorem east_iff : c.halving.box.maxLon < 180 ↔ c.lon + 1 < 2 ^ ((c.level + 1) / 2) := by
  rw [← pos_lt_right (a := (-180 : ℚ)) (b := 180) (by norm_num), Nat.cast_succ]
  rfl

private theorem south_iff : -90 < c.halving.box.minLat ↔ 0 < c.lat :=
  left_lt_pos (by norm_num)

private theorem north_iff : c.halving.box.maxLat < 90 ↔ c.lat + 1 < 2 ^ (c.level / 2) := by
  rw [← pos_lt_right (a := (-90 : ℚ)) (b := 90) (by norm_num), Nat.cast_succ]
  rfl

section Inner

variable {c : Cell} (hin : c.Inner) {d : ℤ × ℤ} (hd : d ∈ compass)
include hin hd

/-- From an inner cell no step is cut short. -/
theorem Inner.step_eq :
    ((c.step d).lon : ℤ) = c.lon + d.2 ∧ ((c.step d).lat : ℤ) = c.lat + d.1 := by
  obtain ⟨⟨h1, h2⟩, ⟨h3, h4⟩, -⟩ := compass_bounds d hd
  obtain ⟨hwest, heast, hsouth, hnorth⟩ := hin
  simp only [step]
  omega

theorem Inner.box_step : adjacentBox c.halving.box d = (c.step d).halving.box := by
  obtain ⟨hlon, hlat⟩ := hin.step_eq hd
  have hlonQ : ((c.step d).lon : ℚ) = c.lon + d.2 := by exact_mod_cast hlon
  have hlatQ : ((c.step d).lat : ℚ) = c.lat + d.1 := by exact_mod_cast hlat
  have hminLon : c.halving.box.minLon + d.2 * (c.halving.box.maxLon - c.halving.box.minLon) =
      lonAt c.level (c.step d).lon := by
    rw [hlonQ]
    exact pos_add_width _ _ _ _ _ _
  have hwrap : wrapLon (lonAt c.level (c.step d).lon) = lonAt c.level (c.step d).lon := by
    have hge : -180 ≤ lonAt c.level (c.step d).lon := left_le_pos (by norm_num) _ _
    have hlt : lonAt c.level (c.step d).lon < 180 :=
      (pos_lt_right (by norm_num)).mpr (c.step d).lon_lt
    rw [wrapLon, if_neg (not_lt.mpr hge), if_neg (not_le.mpr hlt)]
  have hmaxLon : lonAt c.level (c.step d).lon + (c.halving.box.maxLon - c.halving.box.minLon) =
      lonAt c.level ((c.step d).lon + 1) := by
    have hwidth := pos_add_width (-180) 180 ((c.level + 1) / 2) (c.lon : ℚ) (c.step d).lon 1
    rwa [one_mul] at hwidth
  have hminLat : c.halving.box.minLat + d.1 * (c.halving.box.maxLat - c.halving.box.minLat) =
      latAt c.level (c.step d).lat := by
    rw [hlatQ]
    exact pos_add_width _ _ _ _ _ _
  have hmaxLat : c.halving.box.maxLat + d.1 * (c.halving.box.maxLat - c.halving.box.minLat) =
      latAt c.level ((c.step d).lat + 1) := by
    rw [hlatQ, add_right_comm]
    exact pos_add_width _ _ _ _ _ _
  rw [adjacentBox, hminLon, hwrap, hmaxLon, hminLat, hmaxLat]
  rfl

theorem Inner.step_ne : c.step d ≠ c := by
  intro heq
  obtain ⟨hlon, hlat⟩ := hin.step_eq hd
  obtain ⟨-, -, hne⟩ := compass_bounds d hd
  rw [heq] at hlon hlat
  exact hne ⟨by omega, by omega⟩

theorem Inner.step_injective {d' : ℤ × ℤ} (hd' : d' ∈ compass) (heq : c.step d = c.step d') :
    d = d' := by
  obtain ⟨hlon, hlat⟩ := hin.step_eq hd
  obtain ⟨hlon', hlat'⟩ := hin.step_eq hd'
  rw [heq] at hlon hlat
  exact Prod.ext (by omega) (by omega)

end Inner

/-- At the western border the step west stays in the cell, at the eastern border
the step east. -/
theorem step_west {c : Cell} (h : c.lon = 0) : c.step (0, -1) = c := by
  have hlat := c.lat_lt
  refine Cell.ext rfl ?_ ?_
  · simp [step, h]
  · simp only [step]
    omega

theorem step_east {c : Cell} (h : 2 ^ ((c.level + 1) / 2) ≤ c.lon + 1) : c.step (0, 1) = c := by
  have hlat := c.lat_lt
  have hlon := c.lon_lt
  refine Cell.ext rfl ?_ ?_
  · simp only [step]
    omega
  · simp only [step]
    omega

end Cell

private theorem globeNeighbors_next (hin : (cell h).Inner) :
    GlobeNeighbors h (cell h).halving.box (next h) where
  nodup := by
    refine Nodup.of_map cell ?_
    rw [map_cell_next]
    exact (Nodup.map_on fun d hd d' hd' heq => hin.step_injective hd hd' heq) (by decide)
  not_self hmem := by
    have hcell := mem_map_of_mem (f := cell) hmem
    rw [map_cell_next] at hcell
    obtain ⟨d, hd, heq⟩ := mem_map.mp hcell
    exact hin.step_ne hd heq
  length n hn := (mem_next_spec hn).2
  adjacent := by
    have hboxes : (next h).map decodeBBox = ((next h).map cell).map fun c => .ok c.halving.box := by
      rw [map_map]
      exact map_congr_left fun n hn => decodeBBox_cell (mem_next_spec hn).1
    rw [hboxes, map_cell_next, map_map]
    refine map_congr_left fun d hd => ?_
    rw [Function.comp_apply, hin.box_step hd]

variable (bbox : BBox ℚ)

/-- The hashes that `hashesForBBox` looks for. -/
def Intersecting (precision : Nat) (h : Bytes) : Prop :=
  h.length = precision ∧ ∃ box, decodeBBox h = .ok box ∧ box.intersects bbox = true

/-- The test in the loop. -/
def keep (h : Bytes) : Bool := (cell h).halving.box.intersects bbox

private theorem intersecting_iff {bbox : BBox ℚ} {precision : Nat} :
    Intersecting bbox precision h ↔ (Valid h ∧ h.length = precision) ∧ keep bbox h = true := by
  constructor
  · rintro ⟨hlen, box, hbox, hinter⟩
    have hvalid := valid_of_decodeBBox hbox
    rw [decodeBBox_cell hvalid] at hbox
    obtain rfl : (cell h).halving.box = box := Except.ok.inj hbox
    exact ⟨⟨hvalid, hlen⟩, hinter⟩
  · rintro ⟨⟨hvalid, hlen⟩, hinter⟩
    exact ⟨hlen, _, decodeBBox_cell hvalid, hinter⟩

/-- On hashes nothing is thrown, and the loop is a flood fill. -/
theorem hashesLoop_eq (fuel : Nat) : ∀ q visited result : List Bytes,
    (∀ h ∈ q, Valid h) → hashesLoop bbox fuel q visited result =
      (FloodFill.run (keep bbox) next 5000 fuel q visited result).map .ok := by
  induction fuel with
  | zero =>
    intro q visited result _
    cases q <;> simp [hashesLoop, FloodFill.run]
  | succ fuel ih =>
    intro q visited result hvalid
    cases q with
    | nil => simp [hashesLoop, FloodFill.run]
    | cons h q =>
      obtain ⟨hh, hq⟩ := forall_mem_cons.mp hvalid
      obtain ⟨fresh, heq, -, -, hfresh, -⟩ := FloodFill.foldl_visit (next h) q visited
      have hqueue : ∀ h' ∈ q ++ fresh, Valid h' := by
        intro h' hmem
        rcases mem_append.mp hmem with hmem | hmem
        · exact hq h' hmem
        · exact (mem_next_spec (hfresh h' hmem).1).1
      rw [hashesLoop, FloodFill.run, decodeBBox_cell hh, neighbors_eq hh]
      dsimp only
      rw [heq]
      by_cases hkeep : keep bbox h = true
      · rw [if_neg (by simpa [keep] using hkeep), if_pos hkeep]
        split
        · rfl
        · exact ih _ _ _ hqueue
      · rw [if_pos (by simpa [keep] using hkeep), if_neg hkeep]
        exact ih q visited result hq

/-! ## Connectedness -/

private theorem exists_hash {k : Nat} {c : Cell} (hlevel : c.level = 5 * k) :
    ∃ h, Valid h ∧ h.length = k ∧ cell h = c := by
  obtain ⟨hvalid, hlen, -⟩ := encode_spec c.centre.lat c.centre.lon k
  refine ⟨_, hvalid, hlen, ?_⟩
  rw [cell_encode, ← hlevel, locate_centre]

variable {start : Bytes}

section Connected

variable (bbox : BBox ℚ) (k : Nat)

/-- The columns of the grid that the box touches. -/
def columns : Set ℕ := touched (-180) 180 ((5 * k + 1) / 2) bbox.minLon bbox.maxLon

/-- The rows of the grid that the box touches. -/
def rows : Set ℕ := touched (-90) 90 (5 * k / 2) bbox.minLat bbox.maxLat

variable {bbox k}

/-- The cells that intersect the box form a rectangle. -/
theorem keep_iff (hlen : h.length = k) :
    keep bbox h = true ↔ (cell h).lon ∈ columns bbox k ∧ (cell h).lat ∈ rows bbox k := by
  have hlevel : (cell h).level = 5 * k := by rw [level_cell, hlen]
  have hlon := (cell h).lon_lt
  have hlat := (cell h).lat_lt
  rw [hlevel] at hlon hlat
  simp only [keep, BBox.intersects, Halving.box, Cell.halving, hlevel, columns, rows, touched,
    Set.mem_ofPred_eq, hlon, hlat, true_and, Bool.not_eq_true', Bool.or_eq_false_iff,
    decide_eq_false_iff_not, not_lt, gt_iff_lt]
  tauto

/-- Every hash of the cell in column `i` and row `j` is reached. -/
def Filled (bbox : BBox ℚ) (k : Nat) (start : Bytes) (i j : ℕ) : Prop :=
  ∀ h, Valid h → h.length = k → (cell h).lon = i → (cell h).lat = j →
    FloodFill.Reaches (keep bbox) next start h

/-- The fill goes from a cell of the rectangle to those next to it. -/
theorem Filled.step {i j i' j' : ℕ} (hfilled : Filled bbox k start i j)
    (hi : i ∈ columns bbox k) (hj : j ∈ rows bbox k) {d : ℤ × ℤ} (hd : d ∈ compass)
    (hi' : (i' : ℤ) = i + d.2) (hj' : (j' : ℤ) = j + d.1) : Filled bbox k start i' j' := by
  intro h' hvalid' hlen' hlon' hlat'
  obtain ⟨h, hvalid, hlen, hcell⟩ := exists_hash (k := k) (c := ⟨5 * k, i, j, hi.1, hj.1⟩) rfl
  have hlon : (cell h).lon = i := by rw [hcell]
  have hlat : (cell h).lat = j := by rw [hcell]
  have hkeep : keep bbox h = true := (keep_iff hlen).mpr (by rw [hlon, hlat]; exact ⟨hi, hj⟩)
  refine (hfilled h hvalid hlen hlon hlat).tail ⟨hkeep, ?_⟩
  refine mem_next hvalid' (hlen'.trans hlen.symm) hd ?_
  have hlevel : (cell h').level = (cell h).level := by rw [level_cell, level_cell, hlen, hlen']
  have hlt := (cell h').lon_lt
  have hlt' := (cell h').lat_lt
  rw [hlevel] at hlt hlt'
  refine Cell.ext hlevel ?_ ?_
  · simp only [Cell.step]
    omega
  · simp only [Cell.step]
    omega

/-- From any of its cells the fill reaches the whole rectangle: first along the
row, then along the columns. -/
theorem reaches_of_keep (hvalid : Valid start) (hlen : start.length = k)
    (hstart : keep bbox start = true) (hvalid' : Valid h) (hlen' : h.length = k)
    (hkeep : keep bbox h = true) : FloodFill.Reaches (keep bbox) next start h := by
  obtain ⟨hi₀, hj₀⟩ := (keep_iff hlen).mp hstart
  obtain ⟨hi, hj⟩ := (keep_iff hlen').mp hkeep
  have hfirst : Filled bbox k start (cell start).lon (cell start).lat := by
    intro h' hvalid'' hlen'' hlon hlat
    have hcell : cell h' = cell start :=
      Cell.ext (by rw [level_cell, level_cell, hlen, hlen'']) hlon hlat
    rw [cell_injective hvalid'' hvalid (hlen''.trans hlen.symm) hcell]
    exact Relation.ReflTransGen.refl
  have hrow : Filled bbox k start (cell h).lon (cell start).lat := by
    refine FloodFill.line_induction (ordConnected_touched (by norm_num) _ _ _)
      (P := fun i => Filled bbox k start i (cell start).lat) hi₀ hfirst ?_ ?_ hi
    · intro i hi _ hfilled
      exact hfilled.step hi hj₀ (d := (0, 1)) (by decide) (by simp) (by simp)
    · intro i _ hi hfilled
      exact hfilled.step hi hj₀ (d := (0, -1)) (by decide) (by simp) (by simp)
  have hcolumn : Filled bbox k start (cell h).lon (cell h).lat := by
    refine FloodFill.line_induction (ordConnected_touched (by norm_num) _ _ _)
      (P := fun j => Filled bbox k start (cell h).lon j) hj₀ hrow ?_ ?_ hj
    · intro j hj _ hfilled
      exact hfilled.step hi hj (d := (1, 0)) (by decide) (by simp) (by simp)
    · intro j _ hj hfilled
      exact hfilled.step hi hj (d := (-1, 0)) (by decide) (by simp) (by simp)
  exact hcolumn h hvalid' hlen' rfl rfl

/-- What is reached are hashes of the same length. -/
theorem valid_of_reaches (hvalid : Valid start) (hlen : start.length = k)
    (hreach : FloodFill.Reaches (keep bbox) next start h) :
    Valid h ∧ h.length = k := by
  induction hreach with
  | refl => exact ⟨hvalid, hlen⟩
  | tail _ hstep ih =>
    obtain ⟨hvalid', hlen'⟩ := mem_next_spec hstep.2
    exact ⟨hvalid', hlen'.trans ih.2⟩

/-- A fill that starts in the rectangle finds the cells that intersect the box. -/
theorem reaches_iff (hvalid : Valid start) (hlen : start.length = k)
    (hstart : keep bbox start = true) (h : Bytes) :
    keep bbox h = true ∧ FloodFill.Reaches (keep bbox) next start h ↔ Intersecting bbox k h := by
  rw [intersecting_iff]
  constructor
  · rintro ⟨hkeep, hreach⟩
    exact ⟨valid_of_reaches hvalid hlen hreach, hkeep⟩
  · rintro ⟨⟨hvalid', hlen'⟩, hkeep⟩
    exact ⟨hkeep, reaches_of_keep hvalid hlen hstart hvalid' hlen' hkeep⟩

/-- The cell of the centre of a box in the world intersects the box. -/
theorem keep_center (hlat : bbox.minLat ≤ bbox.maxLat) (hlon : bbox.minLon ≤ bbox.maxLon)
    (hworld : bbox.Within Halving.world.box) :
    keep bbox (encode ((bbox.minLat + bbox.maxLat) / 2) ((bbox.minLon + bbox.maxLon) / 2) k) =
      true := by
  have hmem : bbox.contains
      ⟨(bbox.minLat + bbox.maxLat) / 2, (bbox.minLon + bbox.maxLon) / 2⟩ = true := by
    rw [BBox.contains_iff]
    exact ⟨⟨by linarith, by linarith⟩, by linarith, by linarith⟩
  rw [keep, cell_encode]
  exact BBox.intersects_of_contains (locate_contains (hworld.contains hmem) _) hmem

end Connected

private theorem length_le_of_encard {p : Bytes → Prop} {n : ℕ} (hcount : {h | p h}.encard ≤ n)
    {l : List Bytes} (hnodup : l.Nodup) (hl : ∀ h ∈ l, p h) : l.length ≤ n := by
  have hsub : (l.toFinset : Set Bytes) ⊆ {h | p h} := fun h hh =>
    hl h (mem_toFinset.mp hh)
  have hcard := (Set.encard_le_encard hsub).trans hcount
  rw [Set.encard_coe_eq_coe_finsetCard, toFinset_card_of_nodup hnodup] at hcard
  exact_mod_cast hcard

/-- **For a box inside the world that at most 5000 cells intersect, the fill ends
within 40001 rounds and returns exactly these cells, each once.** -/
theorem hashesForBBox_exact (bbox : BBox ℚ) (hlat : bbox.minLat ≤ bbox.maxLat)
    (hlon : bbox.minLon ≤ bbox.maxLon) (hworld : bbox.Within Halving.world.box)
    {precision : Nat} (hcount : {h | Intersecting bbox precision h}.encard ≤ 5000)
    {fuel : Nat} (hfuel : 1 + 8 * 5000 ≤ fuel) :
    ∃ result, hashesForBBox fuel bbox precision = some (.ok result) ∧ result.Nodup ∧
      ∀ h, h ∈ result ↔ Intersecting bbox precision h := by
  obtain ⟨hvalid, hlen, -⟩ := encode_spec ((bbox.minLat + bbox.maxLat) / 2)
    ((bbox.minLon + bbox.maxLon) / 2) precision
  have hiff := reaches_iff hvalid hlen (keep_center hlat hlon hworld)
  obtain ⟨result, hrun, hnodup, hresult⟩ := FloodFill.run_spec
    (fun l hnodup hl => length_le_of_encard hcount hnodup fun h hh => (hiff h).mp (hl h hh))
    (fun _ _ _ => le_refl 8) hfuel
  refine ⟨result, ?_, hnodup, fun h => (hresult h).trans (hiff h)⟩
  rw [hashesForBBox, hashesLoop_eq _ _ _ _ _ (forall_mem_singleton.mpr hvalid), hrun]
  rfl

/-- The four cells around the origin. -/
theorem hashesForBBox_origin : ∃ result, hashesForBBox 40001 ⟨-1, -1, 1, 1⟩ 1 = some (.ok result) ∧
    result.Nodup ∧ ∀ h ∈ [lit "s", lit "k", lit "7", lit "e"], h ∈ result := by
  -- there are no more than 32 hashes of length one
  have hsub : {h | Intersecting ⟨-1, -1, 1, 1⟩ 1 h} ⊆
      ((base32.map fun c => [c]).toFinset : Set Bytes) := by
    intro h hh
    obtain ⟨⟨hvalid, hlen⟩, -⟩ := intersecting_iff.mp hh
    obtain ⟨c, rfl⟩ := length_eq_one_iff.mp hlen
    exact mem_toFinset.mpr (mem_map_of_mem (hvalid c (mem_singleton_self c)))
  have hcard : (base32.map fun c => [c]).toFinset.card ≤ 5000 :=
    (toFinset_card_le _).trans (by decide +kernel)
  have hcount : {h | Intersecting ⟨-1, -1, 1, 1⟩ 1 h}.encard ≤ 5000 := by
    refine (Set.encard_le_encard hsub).trans ?_
    rw [Set.encard_coe_eq_coe_finsetCard]
    exact_mod_cast hcard
  obtain ⟨result, hrun, hnodup, hresult⟩ := hashesForBBox_exact ⟨-1, -1, 1, 1⟩
    (by norm_num) (by norm_num) ⟨by decide +kernel, by decide +kernel, by decide +kernel,
      by decide +kernel⟩ hcount (le_refl 40001)
  refine ⟨result, hrun, hnodup, fun h hh => (hresult h).mpr (intersecting_iff.mpr ?_)⟩
  revert h
  decide +kernel

end SpatialDb.Spatial.Geohash
