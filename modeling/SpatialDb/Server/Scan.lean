import SpatialDb.Glob.Parse
import SpatialDb.Lib.Paging
import SpatialDb.Server.Collection

/-!
# SCAN and SEARCH

Model of `cmdScan` and `cmdSearch` of `internal/legacy/server/scan.go` and
`search.go`, of the writer in `scanner.go` that they push the objects into, and
of the iterations of `internal/legacy/collection/collection.go`.  The tests of
WHERE, WHEREIN and WHEREEVAL are functions of the object; the text of the reply
is not modelled, only the count, the cursor and the objects in it.

A COUNT request can take the count from the collection.  The result then
depends on neither the limit nor, for SEARCH, on what would be visited.
-/

namespace SpatialDb.Server

open Lib List OrdMap
open Lib.Paging (Page readPage pageAt askPages)

/-- An object with its id. -/
abbrev Item (G : Type*) := Bytes × Object G

/-- `outputT`. -/
inductive Output where
  | ids
  | objects
  | count
  | points
  | hashes
  | bounds
  deriving DecidableEq

/-- The tests of a request; a script can fail. -/
structure Filters (G : Type*) where
  wheres : List (Item G → Bool) := []
  whereins : List (Item G → Bool) := []
  whereevals : List (Item G → Except Bytes Bool) := []

/-- The part of `searchScanBaseTokens` that SCAN and SEARCH read; a limit that
is not given is zero. -/
structure ScanArgs (G : Type*) where
  cursor : Nat := 0
  output : Output := .objects
  globs : List Bytes := []
  filters : Filters G := {}
  limit : Nat := 0
  desc : Bool := false

/-! ## The writer -/

/-- `scanWriter`, as far as an iteration reads or changes it. -/
structure ScanWriter (G : Type*) where
  output : Output
  filters : Filters G
  cursor : Nat
  limit : Nat
  globs : List Bytes
  globEverything : Bool
  matchValues : Bool
  numberIters : Nat := 0
  numberItems : Nat := 0
  hitLimit : Bool := false
  count : Nat := 0
  filled : List (Item G) := []

/-- `limitItems`. -/
def limitItems : Nat := 100

section

variable {G R : Type*}

/-- `newScanWriter`. -/
def newScanWriter (a : ScanArgs G) (matchValues : Bool) : ScanWriter G where
  output := a.output
  filters := a.filters
  cursor := a.cursor
  limit := if a.limit = 0 then if a.output = .count then 2 ^ 64 - 1 else limitItems else a.limit
  globs := a.globs
  globEverything := a.globs.length = 0 || a.globs = [lit "*"]
  matchValues := matchValues

/-- The loop over the scripts of `fieldMatch`. -/
def evalMatch (o : Item G) : List (Item G → Except Bytes Bool) → Except Bytes Bool
  | [] => .ok true
  | whereeval :: more =>
    match whereeval o with
    | .error e => .error e
    | .ok false => .ok false
    | .ok true => evalMatch o more

def fieldMatch (f : Filters G) (o : Item G) : Except Bytes Bool :=
  if !(f.wheres.all fun where_ => where_ o) then .ok false
  else if !(f.whereins.all fun wherein => wherein o) then .ok false
  else evalMatch o f.whereevals

variable (lib : GeoLib G R) (sw : ScanWriter G)

def globMatch (o : Item G) : Bool :=
  if sw.globEverything then true
  else
    let val := if sw.matchValues then o.2.geo.str lib else o.1
    sw.globs.any fun pattern => Glob.wildcardMatch pattern val = .ok true

def testObject (o : Item G) : Except Bytes Bool :=
  if globMatch lib sw o then fieldMatch sw.filters o else .ok false

/-- `pushObject`: whether to go on, and the writer. -/
def pushObject (o : Item G) : Except Bytes (Bool × ScanWriter G) :=
  match testObject lib sw o with
  | .error e => .error e
  | .ok false => .ok (true, sw)
  | .ok true =>
    let sw := { sw with count := sw.count + 1 }
    if sw.output = .count then .ok (sw.count < sw.limit, sw)
    else
      let sw := { sw with filled := sw.filled ++ [o], numberItems := sw.numberItems + 1 }
      if sw.numberItems = sw.limit then .ok (false, { sw with hitLimit := true })
      else .ok (true, sw)

/-- `Step`. -/
def ScanWriter.step (n : Nat) : ScanWriter G :=
  { sw with numberIters := sw.numberIters + n }

/-! ## The iterations -/

/-- The callback of the iterations of a collection: the first `offset` objects
are skipped, the others count as a step, and one past the end of the range
ends the iteration. -/
def iterate (stop : Item G → Bool) (offset : Nat) :
    List (Item G) → Nat → ScanWriter G → Except Bytes (ScanWriter G)
  | [], _, sw => .ok sw
  | o :: objs, count, sw =>
    if count + 1 ≤ offset then iterate stop offset objs (count + 1) sw
    else if stop o then .ok (sw.step 1)
    else
      match pushObject lib (sw.step 1) o with
      | .error e => .error e
      | .ok (true, sw) => iterate stop offset objs (count + 1) sw
      | .ok (false, sw) => .ok sw

/-- The iterations ask the writer for its cursor and count it as steps. -/
def iterateFrom (stop : Item G → Bool) (objs : List (Item G)) (sw : ScanWriter G) :
    Except Bytes (ScanWriter G) :=
  iterate lib stop sw.cursor objs 0 (sw.step sw.cursor)

/-- The objects in the order of an iteration. -/
def ordered {α : Type*} (desc : Bool) (l : List α) : List α := if desc then l.reverse else l

variable (c : Collection G R) (desc : Bool) (sw : ScanWriter G)

/-- `Scan`. -/
def Collection.scan : Except Bytes (ScanWriter G) :=
  iterateFrom lib (fun _ => false) (ordered desc c.objs.entries) sw

/-- `ScanRange`. -/
def Collection.scanRange (start stop : Bytes) (desc : Bool)
    (sw : ScanWriter G) : Except Bytes (ScanWriter G) :=
  if desc then
    iterateFrom lib (fun o => o.1 ≤ stop) (c.objs.entries.filter fun o => o.1 ≤ start).reverse sw
  else iterateFrom lib (fun o => stop ≤ o.1) (c.objs.ascend start) sw

/-- The objects of the values index, by value and then by id. -/
def Collection.valueItems : List ((Bytes ×ₗ Bytes) × Item G) :=
  c.values.entries.map fun e => (e.1, (ofLex e.1).2, e.2)

/-- `SearchValues`. -/
def Collection.searchValues : Except Bytes (ScanWriter G) :=
  iterateFrom lib (fun _ => false) ((ordered desc c.valueItems).map Prod.snd) sw

/-- `SearchValuesRange`; the end of the range is tested before the callback. -/
def Collection.searchValuesRange (start stop : Bytes) (desc : Bool)
    (sw : ScanWriter G) : Except Bytes (ScanWriter G) :=
  let pstart := toLex (start, ([] : Bytes))
  let pend := toLex (stop, ([] : Bytes))
  let visited :=
    if desc then
      (c.valueItems.filter fun e => e.1 ≤ pstart).reverse.takeWhile fun e => pend < e.1
    else (c.valueItems.filter fun e => pstart ≤ e.1).takeWhile fun e => e.1 < pend
  iterateFrom lib (fun _ => false) (visited.map Prod.snd) sw

/-! ## The commands -/

/-- One round of `multiGlobParse` after the first pattern. -/
def widen (limits more : Bytes × Bytes) : Bytes × Bytes :=
  if desc then
    (if limits.1 < more.1 then more.1 else limits.1, if more.2 < limits.2 then more.2 else limits.2)
  else
    (if more.1 < limits.1 then more.1 else limits.1, if limits.2 < more.2 then more.2 else limits.2)

/-- `multiGlobParse`: the hull of the ranges, or everything. -/
def multiGlobParse (desc : Bool) : Option (Bytes × Bytes) → List Bytes → Bytes × Bytes
  | limits, [] => limits.getD ([], [])
  | limits, pattern :: globs =>
    let more := (Glob.parse pattern desc).limits
    if more = ([], []) then ([], [])
    else multiGlobParse desc (some (limits.elim more fun limits => widen desc limits more)) globs

/-- The iterating branch of `cmdScan`. -/
def scanIterating (a : ScanArgs G) (sw : ScanWriter G) : Except Bytes (ScanWriter G) :=
  let limits := multiGlobParse a.desc none sw.globs
  if limits = ([], []) then c.scan lib a.desc sw
  else c.scanRange lib limits.1 limits.2 a.desc sw

/-- The iterating branch of `cmdSearch`. -/
def searchIterating (a : ScanArgs G) (sw : ScanWriter G) : Except Bytes (ScanWriter G) :=
  let limits := multiGlobParse a.desc none sw.globs
  if limits = ([], []) then c.searchValues lib a.desc sw
  else c.searchValuesRange lib limits.1 limits.2 a.desc sw

/-- The stored count less the cursor, both of them an `int`, but not below zero. -/
def storedCount (cursor : Nat) : Nat :=
  ((c.count - cursor).bmod (2 ^ 64)).toNat

variable (col : Option (Collection G R))

/-- `cmdScan`, up to `writeFoot`. -/
def cmdScan (a : ScanArgs G) : Except Bytes (ScanWriter G) :=
  let sw := newScanWriter a false
  match col with
  | none => .ok sw
  | some c =>
    if sw.output = .count ∧ sw.filters.wheres.length = 0 ∧ sw.filters.whereins.length = 0 ∧
        sw.filters.whereevals.length = 0 ∧ sw.globEverything then
      .ok { sw with count := storedCount c a.cursor }
    else scanIterating lib c a sw

/-- `cmdSearch`, up to `writeFoot`. -/
def cmdSearch (a : ScanArgs G) : Except Bytes (ScanWriter G) :=
  let sw := newScanWriter a true
  match col with
  | none => .ok sw
  | some c =>
    if sw.output = .count ∧ sw.filters.wheres.length = 0 ∧ sw.globEverything then
      .ok { sw with count := storedCount c a.cursor }
    else searchIterating lib c a sw

/-- `writeFoot`: the objects of the reply and the cursor. -/
def writeFoot : Page (Item G) :=
  ⟨sw.filled, if sw.hitLimit then sw.numberIters else 0⟩

end

/-! ## What an iteration leaves in the writer -/

/-- No script of the request fails. -/
def Filters.Total {G : Type*} (f : Filters G) : Prop :=
  ∀ whereeval ∈ f.whereevals, ∀ o, ∃ b, whereeval o = .ok b

section Iterate

variable {G R : Type*} (lib : GeoLib G R)

/-- The objects that a writer takes. -/
def passes (sw : ScanWriter G) (o : Item G) : Bool :=
  match testObject lib sw o with
  | .ok b => b
  | .error _ => false

theorem evalMatch_total {evals : List (Item G → Except Bytes Bool)}
    (h : ∀ whereeval ∈ evals, ∀ o, ∃ b, whereeval o = .ok b) (o : Item G) :
    ∃ b, evalMatch o evals = .ok b := by
  induction evals with
  | nil => exact ⟨true, rfl⟩
  | cons whereeval evals ih =>
    obtain ⟨b, hb⟩ := h whereeval mem_cons_self o
    rw [evalMatch, hb]
    cases b with
    | false => exact ⟨false, rfl⟩
    | true => exact ih (forall_mem_cons.mp h).2

variable (sw : ScanWriter G)

theorem testObject_eq (h : sw.filters.Total) (o : Item G) :
    testObject lib sw o = .ok (passes lib sw o) := by
  have hok : ∃ b, testObject lib sw o = .ok b := by
    rw [testObject, fieldMatch]
    split
    · split
      · exact ⟨false, rfl⟩
      split
      · exact ⟨false, rfl⟩
      · exact evalMatch_total h o
    · exact ⟨false, rfl⟩
  obtain ⟨b, hb⟩ := hok
  rw [passes, hb]

/-- The objects before the cursor are passed over. -/
theorem iterate_eq_drop (stop : Item G → Bool) (offset : Nat) (objs : List (Item G)) (count : Nat)
    (sw : ScanWriter G) :
    iterate lib stop offset objs count sw =
      iterate lib stop 0 (objs.drop (offset - count)) 0 sw := by
  -- past the cursor the number of objects seen is no longer looked at
  have hpast (objs : List (Item G)) : ∀ {count offset count' offset' : Nat} (sw : ScanWriter G),
      offset ≤ count → offset' ≤ count' →
      iterate lib stop offset objs count sw = iterate lib stop offset' objs count' sw := by
    induction objs with
    | nil => intros; rfl
    | cons o objs ih =>
      intro count offset count' offset' sw h h'
      rw [iterate, iterate, if_neg (show ¬ count + 1 ≤ offset by omega),
        if_neg (show ¬ count' + 1 ≤ offset' by omega)]
      split
      · rfl
      split
      · rfl
      · exact ih _ (by omega) (by omega)
      · rfl
  induction objs generalizing count with
  | nil => rw [drop_nil, iterate, iterate]
  | cons o objs ih =>
    by_cases hskip : count + 1 ≤ offset
    · rw [iterate, if_pos hskip, ih, show offset - count = (offset - (count + 1)) + 1 by omega,
        drop_succ_cons]
    · rw [show offset - count = 0 by omega, drop_zero]
      exact hpast _ sw (by omega) le_rfl

/-- The writer with one more object. -/
def ScanWriter.take (sw : ScanWriter G) (o : Item G) : ScanWriter G :=
  { sw with
    count := sw.count + 1
    filled := sw.filled ++ [o]
    numberItems := sw.numberItems + 1 }

/-- The writer after a page. -/
def ScanWriter.addPage (sw : ScanWriter G) (r : Paging.PageRead (Item G)) : ScanWriter G :=
  { sw with
    numberIters := sw.numberIters + r.visited
    numberItems := sw.numberItems + r.items.length
    hitLimit := sw.hitLimit || r.full
    count := sw.count + r.items.length
    filled := sw.filled ++ r.items }

theorem ScanWriter.addPage_step (r : Paging.PageRead (Item G)) :
    (sw.step 1).addPage r = sw.addPage ⟨r.items, r.visited + 1, r.full⟩ := by
  simp [addPage, step, Nat.add_assoc, Nat.add_comm 1]

theorem ScanWriter.addPage_take (o : Item G) (r : Paging.PageRead (Item G)) :
    ((sw.step 1).take o).addPage r = sw.addPage ⟨o :: r.items, r.visited + 1, r.full⟩ := by
  simp [addPage, step, take, Nat.add_assoc, Nat.add_comm 1]

section

variable (h : sw.filters.Total)
include h

theorem pushObject_false {o : Item G}
    (hpass : passes lib sw o = false) : pushObject lib sw o = .ok (true, sw) := by
  rw [pushObject, testObject_eq lib sw h, hpass]

theorem pushObject_true (hout : sw.output ≠ .count) {o : Item G} (hpass : passes lib sw o = true) :
    pushObject lib sw o =
      if sw.numberItems + 1 = sw.limit then .ok (false, { sw.take o with hitLimit := true })
      else .ok (true, sw.take o) := by
  rw [pushObject, testObject_eq lib sw h, hpass]
  simp only [hout, if_false]
  rfl

theorem pushObject_count (hout : sw.output = .count) {o : Item G} (hpass : passes lib sw o = true) :
    pushObject lib sw o = .ok (sw.count + 1 < sw.limit, { sw with count := sw.count + 1 }) := by
  rw [pushObject, testObject_eq lib sw h, hpass]
  exact if_pos hout

/-- Without a script that fails an object is pushed without an error. -/
theorem pushObject_ok (o : Item G) :
    ∃ keepGoing sw', pushObject lib sw o = .ok (keepGoing, sw') ∧ sw'.filters = sw.filters := by
  cases hpass : passes lib sw o with
  | false => exact ⟨true, sw, pushObject_false lib sw h hpass, rfl⟩
  | true =>
    by_cases hout : sw.output = .count
    · exact ⟨_, _, pushObject_count lib sw h hout hpass, rfl⟩
    rw [pushObject_true lib sw h hout hpass]
    split
    · exact ⟨_, _, rfl, rfl⟩
    · exact ⟨_, _, rfl, rfl⟩

theorem iterate_items (hout : sw.output ≠ .count)
    (hroom : sw.numberItems < sw.limit) (stop : Item G → Bool) (objs : List (Item G)) (n : Nat) :
    iterate lib stop 0 objs n sw = .ok (sw.addPage
      (readPage stop (passes lib sw) (sw.limit - sw.numberItems) objs)) := by
  induction objs generalizing sw n with
  | nil => simp [iterate, readPage, ScanWriter.addPage]
  | cons o objs ih =>
    rw [iterate, if_neg (by omega), readPage]
    cases hstop : stop o with
    | true => simp [ScanWriter.addPage, ScanWriter.step]
    | false =>
      have hstep : passes lib (sw.step 1) o = passes lib sw o := rfl
      simp only [Bool.false_eq_true, if_false]
      cases hpass : passes lib sw o with
      | false =>
        have hrest : iterate lib stop 0 objs (n + 1) (sw.step 1) = _ :=
          ih (sw.step 1) h hout hroom (n + 1)
        have hpush : pushObject lib (sw.step 1) o = _ :=
          pushObject_false lib (sw.step 1) h (hstep.trans hpass)
        simp only [hpush, hrest, ScanWriter.addPage_step, Bool.false_eq_true, if_false]
        rfl
      | true =>
        have hpush : pushObject lib (sw.step 1) o = _ :=
          pushObject_true lib (sw.step 1) h hout (hstep.trans hpass)
        simp only [hpush, if_true]
        by_cases hlimit : sw.numberItems + 1 = sw.limit
        · rw [if_pos (show (sw.step 1).numberItems + 1 = (sw.step 1).limit from hlimit),
            if_pos (by omega)]
          simp [ScanWriter.addPage, ScanWriter.take, ScanWriter.step]
        have hrest : iterate lib stop 0 objs (n + 1) ((sw.step 1).take o) = _ :=
          ih ((sw.step 1).take o) h hout (show sw.numberItems + 1 < sw.limit by omega) (n + 1)
        rw [if_neg (show ¬ (sw.step 1).numberItems + 1 = (sw.step 1).limit from hlimit),
          if_neg (by omega)]
        simp only [hrest, ScanWriter.addPage_take]
        rfl

/-- A COUNT request stops at its limit. -/
theorem iterate_count (hout : sw.output = .count)
    (hroom : sw.count < sw.limit) (objs : List (Item G)) (n : Nat) :
    ∃ sw', iterate lib (fun _ => false) 0 objs n sw = .ok sw' ∧
      sw'.count = min sw.limit (sw.count + objs.countP (passes lib sw)) := by
  induction objs generalizing sw n with
  | nil =>
    refine ⟨sw, rfl, ?_⟩
    rw [countP_nil, Nat.add_zero, Nat.min_eq_right hroom.le]
  | cons o objs ih =>
    have hstep : passes lib (sw.step 1) o = passes lib sw o := rfl
    rw [iterate, if_neg (by omega), if_neg (by decide)]
    cases hpass : passes lib sw o with
    | false =>
      rw [pushObject_false lib (sw.step 1) h (hstep.trans hpass),
        countP_cons_of_neg (by simp [hpass])]
      exact ih (sw.step 1) h hout hroom (n + 1)
    | true =>
      have hpush : pushObject lib (sw.step 1) o =
          .ok (sw.count + 1 < sw.limit, { sw.step 1 with count := sw.count + 1 }) :=
        pushObject_count lib (sw.step 1) h hout (hstep.trans hpass)
      rw [hpush, countP_cons_of_pos hpass]
      by_cases hlimit : sw.count + 1 < sw.limit
      · simp only [hlimit, decide_true]
        obtain ⟨sw', hiter, hcount⟩ :=
          ih { sw.step 1 with count := sw.count + 1 } h hout hlimit (n + 1)
        refine ⟨sw', hiter, hcount.trans ?_⟩
        rw [Nat.add_assoc, Nat.add_comm 1]
        rfl
      simp only [hlimit, decide_false]
      refine ⟨_, rfl, ?_⟩
      show sw.count + 1 = _
      omega

end

end Iterate

/-- A library with one point. -/
def pointLib : GeoLib Unit Unit := ⟨fun _ => false, fun _ => (), fun _ => 1, fun _ => []⟩

/-- Two strings and a point. -/
def mixedOps : List (Collection.Op Unit) :=
  [.set (lit "a") ⟨.string (lit "x"), 0, empty⟩,
    .set (lit "b") ⟨.spatial (), 0, empty⟩,
    .set (lit "c") ⟨.string (lit "y"), 0, empty⟩]

/-- The collection of the point and the strings. -/
def mixed : Collection Unit Unit := Collection.run pointLib (fun _ => 0) mixedOps

/-! ## Page after page of a SCAN -/

section Pages

variable {G R : Type*} (lib : GeoLib G R) (c : Collection G R) (a : ScanArgs G)

/-- The end of the range of a SCAN, and the objects in the order of the scan. -/
def scanPlan : (Item G → Bool) × List (Item G) :=
  let limits := multiGlobParse a.desc none a.globs
  if limits = ([], []) then (fun _ => false, ordered a.desc c.objs.entries)
  else if a.desc then
    (fun o => o.1 ≤ limits.2, (c.objs.entries.filter fun o => o.1 ≤ limits.1).reverse)
  else (fun o => limits.2 ≤ o.1, c.objs.ascend limits.1)

theorem scanIterating_eq {sw : ScanWriter G}
    (h : sw.globs = a.globs) :
    scanIterating lib c a sw = iterateFrom lib (scanPlan c a).1 (scanPlan c a).2 sw := by
  simp only [scanIterating, scanPlan, h]
  split
  · rfl
  · rw [Collection.scanRange]
    split <;> rfl

/-- Each object is visited once at most. -/
theorem scanPlan_sublist :
    (scanPlan c a).2.length ≤ c.objs.size ∧ ((scanPlan c a).2.map Prod.fst).Nodup := by
  have hnodup : (c.objs.entries.map Prod.fst).Nodup := c.objs.nodup_keys
  have hfilter (p : Item G → Bool) : (c.objs.entries.filter p).length ≤ c.objs.size ∧
      ((c.objs.entries.filter p).map Prod.fst).Nodup :=
    ⟨length_filter_le _ _, hnodup.sublist (filter_sublist.map _)⟩
  have hreverse {l : List (Item G)} (h : l.length ≤ c.objs.size ∧ (l.map Prod.fst).Nodup) :
      l.reverse.length ≤ c.objs.size ∧ (l.reverse.map Prod.fst).Nodup := by
    rw [length_reverse, map_reverse, nodup_reverse]
    exact h
  rw [scanPlan]
  split
  · rw [ordered]
    split
    · exact hreverse ⟨le_rfl, hnodup⟩
    · exact ⟨le_rfl, hnodup⟩
  · split
    · exact hreverse (hfilter _)
    · exact hfilter _

/-- The reply to a SCAN with a cursor. -/
def scanPage (cursor : Nat) : Except Bytes (Page (Item G)) :=
  (cmdScan lib (some c) { a with cursor }).map writeFoot

theorem scanPage_eq {a : ScanArgs G} (hout : a.output ≠ .count)
    (htotal : a.filters.Total) (n : Nat) (hn : 1 ≤ n) (cursor : Nat) :
    scanPage lib c { a with limit := n } cursor = .ok (pageAt (scanPlan c a).1
      (passes lib (newScanWriter a false)) n (scanPlan c a).2 cursor) := by
  let sw := newScanWriter { a with limit := n, cursor } false
  have hlimit : sw.limit = n := if_neg (Nat.one_le_iff_ne_zero.mp hn)
  have hcmd : cmdScan lib (some c) { a with limit := n, cursor } =
      iterateFrom lib (scanPlan c a).1 (scanPlan c a).2 sw :=
    (if_neg fun h => hout h.1).trans (scanIterating_eq lib c { a with limit := n, cursor } rfl)
  have hiter := iterate_items lib (sw.step cursor) htotal hout (show 0 < sw.limit by omega)
    (scanPlan c a).1 ((scanPlan c a).2.drop cursor) 0
  have hfrom : iterateFrom lib (scanPlan c a).1 (scanPlan c a).2 sw = _ :=
    (iterate_eq_drop lib (scanPlan c a).1 cursor (scanPlan c a).2 0 _).trans hiter
  have hiters : (sw.step cursor).numberIters = cursor := Nat.zero_add cursor
  rw [scanPage, hcmd, hfrom,
    show (sw.step cursor).limit - (sw.step cursor).numberItems = n from hlimit]
  simp only [Except.map, writeFoot, ScanWriter.addPage, pageAt, hiters]
  rfl

/-- Repeating a SCAN with the cursor of the page before ends; each page with a
cursor is full; and the pages together are what one SCAN with room for the
whole collection returns, each object once. -/
theorem scan_pages (hout : a.output ≠ .count)
    (htotal : a.filters.Total) (n m : Nat) (hn : 1 ≤ n) (hm : c.objs.size < m) :
    ∃ pages all,
      askPages (scanPage lib c { a with limit := n }) (c.objs.size + 1) 0 = .ok (some pages) ∧
      scanPage lib c { a with limit := m } 0 = .ok all ∧
      (∀ page ∈ pages, page.cursor ≠ 0 → page.items.length = n) ∧
      pages.flatMap Page.items = all.items ∧
      all.cursor = 0 ∧ (all.items.map Prod.fst).Nodup := by
  obtain ⟨hsize, hnodup⟩ := scanPlan_sublist c a
  obtain ⟨pages, all, hask, hall, hfull, hflat, hcursor, hsub⟩ :=
    Paging.askPages_eq_page (scanPage_eq lib c hout htotal) hn hsize hm
  exact ⟨pages, all, hask, hall, hfull, hflat, hcursor, hnodup.sublist (hsub.map Prod.fst)⟩

end Pages

/-- Three objects in pages of two. -/
theorem scan_pages_mixed :
    mixed.objs.size < 4 ∧
    ∃ pages all,
      askPages (scanPage pointLib mixed { output := .ids, limit := 2 }) (mixed.objs.size + 1) 0 =
        .ok (some pages) ∧
      scanPage pointLib mixed { output := .ids, limit := 4 } 0 = .ok all ∧
      pages.flatMap Page.items = all.items := by
  have hsize : mixed.objs.size < 4 := by decide +kernel
  obtain ⟨pages, all, hask, hall, -, hflat, -⟩ := scan_pages pointLib mixed { output := .ids }
    (by decide) (fun _ h => by cases h) 2 4 (by decide) hsize
  exact ⟨hsize, pages, all, hask, hall, hflat⟩

/-! ## Counting without an iteration -/

section Counts

variable {G R : Type*} {lib : GeoLib G R} {fieldsWeight : FieldList → Nat}

/-- Without a script that fails an iteration comes to an end. -/
theorem iterate_ok (stop : Item G → Bool) (offset : Nat) (objs : List (Item G)) (n : Nat)
    (sw : ScanWriter G) (h : sw.filters.Total) :
    ∃ sw', iterate lib stop offset objs n sw = .ok sw' := by
  induction objs generalizing n sw with
  | nil => exact ⟨sw, rfl⟩
  | cons o objs ih =>
    rw [iterate]
    split
    · exact ih (n + 1) sw h
    split
    · exact ⟨_, rfl⟩
    obtain ⟨keepGoing, sw', hpush, hfilters⟩ := pushObject_ok lib (sw.step 1) h o
    rw [hpush]
    cases keepGoing with
    | true => exact ih (n + 1) sw' (hfilters ▸ h)
    | false => exact ⟨sw', rfl⟩

variable {c : Collection G R} {a : ScanArgs G}

theorem storedCount_eq (h : Collection.Inv lib fieldsWeight c) (hsize : c.objs.size < 2 ^ 63)
    {cursor : Nat} (hcursor : cursor < 2 ^ 64) :
    storedCount c cursor =
      if cursor ≤ 2 ^ 63 + c.objs.size then c.objs.size - cursor
      else c.objs.size + 2 ^ 64 - cursor := by
  rw [storedCount, Collection.count_eq_size h]
  generalize c.objs.size = size at hsize ⊢
  rw [Int.bmod_def]
  split <;> split <;> omega

/-- The patterns of a request that let every object pass. -/
def ScanArgs.Everything (a : ScanArgs G) : Prop := a.globs = [] ∨ a.globs = [lit "*"]

instance (a : ScanArgs G) : Decidable a.Everything := inferInstanceAs (Decidable (_ ∨ _))

theorem globEverything_eq (a : ScanArgs G) (matchValues : Bool) :
    (newScanWriter a matchValues).globEverything = true ↔ a.Everything := by
  simp [newScanWriter, ScanArgs.Everything]

theorem multiGlobParse_everything (h : a.Everything) :
    multiGlobParse a.desc none a.globs = ([], []) := by
  rcases h with h | h
  · rw [h]
    rfl
  · rw [h, multiGlobParse, if_pos (by cases a.desc <;> decide)]

/-- What passes a request without patterns, WHERE and WHEREEVAL. -/
theorem passes_everything (h : a.Everything) (hwheres : a.filters.wheres = [])
    (hevals : a.filters.whereevals = []) (matchValues : Bool) (o : Item G) :
    passes lib (newScanWriter a matchValues) o =
      a.filters.whereins.all fun wherein => wherein o := by
  have hglob : globMatch lib (newScanWriter a matchValues) o = true := by
    rw [globMatch, if_pos ((globEverything_eq a matchValues).mpr h)]
  have hfield : fieldMatch a.filters o = .ok (a.filters.whereins.all fun wherein => wherein o) := by
    rw [fieldMatch, hwheres, hevals]
    cases hall : a.filters.whereins.all fun wherein => wherein o <;> simp [evalMatch]
  have htest : testObject lib (newScanWriter a matchValues) o =
      .ok (a.filters.whereins.all fun wherein => wherein o) := by
    rw [testObject, if_pos hglob]
    exact hfield
  rw [passes, htest]

/-- The limit that a COUNT request works with. -/
def ScanArgs.countLimit (a : ScanArgs G) : Nat := if a.limit = 0 then 2 ^ 64 - 1 else a.limit

/-- The count of an iteration over everything, from the cursor on. -/
theorem iterateFrom_count (lib : GeoLib G R) (hout : a.output = .count) (h : a.Everything)
    (hwheres : a.filters.wheres = []) (hevals : a.filters.whereevals = []) (matchValues : Bool)
    (objs : List (Item G)) :
    ∃ counted, iterateFrom lib (fun _ => false) objs (newScanWriter a matchValues) = .ok counted ∧
      counted.count = min a.countLimit ((objs.drop a.cursor).countP fun o =>
        a.filters.whereins.all fun wherein => wherein o) := by
  have htotal : a.filters.Total := by
    intro whereeval hmem
    rw [hevals] at hmem
    cases hmem
  have hlimit : (newScanWriter a matchValues).limit = a.countLimit := by
    simp [newScanWriter, ScanArgs.countLimit, hout]
  have hpos : 0 < a.countLimit := by
    rw [ScanArgs.countLimit]
    split <;> omega
  have hpass : passes lib ((newScanWriter a matchValues).step a.cursor) =
      fun o => a.filters.whereins.all fun wherein => wherein o :=
    funext fun o => passes_everything h hwheres hevals matchValues o
  obtain ⟨counted, hiter, hcount⟩ := iterate_count lib
    ((newScanWriter a matchValues).step a.cursor) htotal hout
    (show 0 < (newScanWriter a matchValues).limit by rw [hlimit]; exact hpos)
    (objs.drop a.cursor) 0
  refine ⟨counted, ?_, ?_⟩
  · rw [iterateFrom, iterate_eq_drop]
    exact hiter
  · rw [hcount, hpass]
    show min (newScanWriter a matchValues).limit _ = _
    rw [hlimit]
    congr 1
    exact Nat.zero_add _

/-- The objects that SEARCH visits. -/
def Collection.searchItems (c : Collection G R) (desc : Bool) : List (Item G) :=
  (ordered desc c.valueItems).map Prod.snd

theorem length_searchItems (h : Collection.Inv lib fieldsWeight c) (desc : Bool) :
    (c.searchItems desc).length = (c.objs.entries.filter fun e => !e.2.geo.isSpatial).length := by
  have hlen : (c.searchItems desc).length = c.values.size := by
    cases desc <;> simp [Collection.searchItems, ordered, Collection.valueItems, size]
  have hkey : (fun e : Item G => (Collection.valueKey e.2).isSome) =
      fun e => !e.2.geo.isSpatial := by
    funext e
    rw [Collection.valueKey]
    cases e.2.geo <;> rfl
  rw [hlen, h.values.size_eq, hkey]

/-- A SCAN that takes the stored count: it is right if the limit does not come
first and the cursor is not so large that it becomes a negative `int`. -/
def ScanCountOk (c : Collection G R) (a : ScanArgs G) : Prop :=
  a.filters.wheres = [] → a.filters.whereins = [] → a.Everything →
    a.cursor ≤ 2 ^ 63 + c.objs.size ∧ c.objs.size - a.cursor ≤ a.countLimit

/-- A SEARCH that takes the stored count: it is right if, besides, nothing is
left after the cursor, or there are only strings and the WHEREIN tests pass all
of those after the cursor. -/
def SearchCountOk (c : Collection G R) (a : ScanArgs G) : Prop :=
  a.filters.wheres = [] → a.Everything →
    a.cursor ≤ 2 ^ 63 + c.objs.size ∧
    (c.objs.size ≤ a.cursor ∨
      (∀ e ∈ c.objs.entries, e.2.geo.isSpatial = false) ∧
      (∀ o ∈ (c.searchItems a.desc).drop a.cursor, ∀ wherein ∈ a.filters.whereins, wherein o) ∧
      c.objs.size - a.cursor ≤ a.countLimit)

theorem scanStored_iff (h : Collection.Inv lib fieldsWeight c) (hsize : c.objs.size < 2 ^ 63)
    (hout : a.output = .count) (hevals : a.filters.whereevals = []) (hcursor : a.cursor < 2 ^ 64)
    (hwheres : a.filters.wheres = []) (hins : a.filters.whereins = []) (hall : a.Everything) :
    ∃ counted, scanIterating lib c a (newScanWriter a false) = .ok counted ∧
      (storedCount c a.cursor = counted.count ↔ ScanCountOk c a) := by
  obtain ⟨counted, hiter, hcount⟩ := iterateFrom_count lib hout hall hwheres hevals false
    (ordered a.desc c.objs.entries)
  have hlen : (ordered a.desc c.objs.entries).length = c.objs.size := by
    cases a.desc <;> simp [ordered, size]
  refine ⟨counted, ?_, ?_⟩
  · rw [scanIterating, show (newScanWriter a false).globs = a.globs from rfl,
      multiGlobParse_everything hall]
    exact hiter
  · rw [ScanCountOk, forall_prop_of_true hwheres, forall_prop_of_true hins,
      forall_prop_of_true hall, hcount, hins]
    simp only [all_nil, countP_true, length_drop, hlen]
    rw [storedCount_eq h hsize hcursor]
    split <;> omega

theorem searchStored_iff (h : Collection.Inv lib fieldsWeight c) (hsize : c.objs.size < 2 ^ 63)
    (hout : a.output = .count) (hevals : a.filters.whereevals = []) (hcursor : a.cursor < 2 ^ 64)
    (hwheres : a.filters.wheres = []) (hall : a.Everything) :
    ∃ counted, searchIterating lib c a (newScanWriter a true) = .ok counted ∧
      (storedCount c a.cursor = counted.count ↔ SearchCountOk c a) := by
  obtain ⟨counted, hiter, hcount⟩ := iterateFrom_count lib hout hall hwheres hevals true
    (c.searchItems a.desc)
  refine ⟨counted, ?_, ?_⟩
  · rw [searchIterating, show (newScanWriter a true).globs = a.globs from rfl,
      multiGlobParse_everything hall]
    exact hiter
  · -- the strings are at most all objects, and at most those after the cursor are counted
    have hstrings := length_searchItems h a.desc
    have hle : (c.objs.entries.filter fun e => !e.2.geo.isSpatial).length ≤ c.objs.size :=
      length_filter_le _ _
    have honly : (c.objs.entries.filter fun e => !e.2.geo.isSpatial).length = c.objs.size ↔
        ∀ e ∈ c.objs.entries, e.2.geo.isSpatial = false := by
      rw [size, length_filter_eq_length_iff]
      simp
    have hcounted := countP_le_length
      (p := fun o => a.filters.whereins.all fun wherein => wherein o)
      (l := (c.searchItems a.desc).drop a.cursor)
    have hpass : ((c.searchItems a.desc).drop a.cursor).countP
        (fun o => a.filters.whereins.all fun wherein => wherein o) =
          ((c.searchItems a.desc).drop a.cursor).length ↔
        ∀ o ∈ (c.searchItems a.desc).drop a.cursor, ∀ wherein ∈ a.filters.whereins, wherein o := by
      rw [countP_eq_length]
      simp
    rw [SearchCountOk, forall_prop_of_true hwheres, forall_prop_of_true hall, hcount, ← honly,
      ← hpass, storedCount_eq h hsize hcursor]
    rw [length_drop, hstrings] at hcounted ⊢
    split <;> omega

/-- A command that takes the stored count in some cases and iterates in the others. -/
theorem shortcut_iff {p ok : Prop} [Decidable p] {sw : ScanWriter G} {n : Nat}
    {iterating : Except Bytes (ScanWriter G)} (hiter : ∃ counted, iterating = .ok counted)
    (hstored : p → ∃ counted, iterating = .ok counted ∧ (n = counted.count ↔ ok)) (hok : ¬ p → ok) :
    ∃ stored counted, (if p then .ok { sw with count := n } else iterating) = .ok stored ∧
      iterating = .ok counted ∧ (stored.count = counted.count ↔ ok) := by
  by_cases hp : p
  · obtain ⟨counted, hcounted, hiff⟩ := hstored hp
    exact ⟨_, counted, if_pos hp, hcounted, hiff⟩
  · obtain ⟨counted, hcounted⟩ := hiter
    exact ⟨counted, counted, (if_neg hp).trans hcounted, hcounted, iff_of_true rfl (hok hp)⟩

/-- When the stored count is the count of an iteration, for both commands. -/
theorem count_shortcut_iff {c : Collection G R} (h : Collection.Inv lib fieldsWeight c)
    (hsize : c.objs.size < 2 ^ 63) (a : ScanArgs G) (hout : a.output = .count)
    (hevals : a.filters.whereevals = []) (hcursor : a.cursor < 2 ^ 64) :
    (∃ stored counted, cmdScan lib (some c) a = .ok stored ∧
      scanIterating lib c a (newScanWriter a false) = .ok counted ∧
      (stored.count = counted.count ↔ ScanCountOk c a)) ∧
    (∃ stored counted, cmdSearch lib (some c) a = .ok stored ∧
      searchIterating lib c a (newScanWriter a true) = .ok counted ∧
      (stored.count = counted.count ↔ SearchCountOk c a)) := by
  have htotal : a.filters.Total := by
    intro whereeval hmem
    rw [hevals] at hmem
    cases hmem
  constructor
  · refine shortcut_iff ?_ ?_ fun hnot hwheres hins hall => absurd ?_ hnot
    · rw [scanIterating_eq lib c a rfl]
      exact iterate_ok _ _ _ _ _ htotal
    · rintro ⟨-, hwheres, hins, -, hall⟩
      exact scanStored_iff h hsize hout hevals hcursor (length_eq_zero_iff.mp hwheres)
        (length_eq_zero_iff.mp hins) ((globEverything_eq a false).mp hall)
    · exact ⟨hout, length_eq_zero_iff.mpr hwheres, length_eq_zero_iff.mpr hins,
        length_eq_zero_iff.mpr hevals, (globEverything_eq a false).mpr hall⟩
  · refine shortcut_iff ?_ ?_ fun hnot hwheres hall => absurd ?_ hnot
    · rw [searchIterating]
      split <;> exact iterate_ok _ _ _ _ _ htotal
    · rintro ⟨-, hwheres, hall⟩
      exact searchStored_iff h hsize hout hevals hcursor (length_eq_zero_iff.mp hwheres)
        ((globEverything_eq a true).mp hall)
    · exact ⟨hout, length_eq_zero_iff.mpr hwheres, (globEverything_eq a true).mpr hall⟩

end Counts

/-- A SCAN of everything without a limit. -/
theorem count_shortcut_mixed :
    mixed.objs.size < 2 ^ 63 ∧
    ∃ stored counted, cmdScan pointLib (some mixed) { output := .count } = .ok stored ∧
      scanIterating pointLib mixed { output := .count } (newScanWriter { output := .count } false) =
        .ok counted ∧ stored.count = counted.count := by
  have hsize : mixed.objs.size < 2 ^ 63 := by decide +kernel
  obtain ⟨⟨stored, counted, hcmd, hiter, hiff⟩, -⟩ :=
    count_shortcut_iff (Collection.run_inv pointLib (fun _ => 0) mixedOps) hsize
      { output := .count } rfl rfl (by decide)
  exact ⟨hsize, stored, counted, hcmd, hiter, hiff.mpr fun _ _ _ => by decide +kernel⟩

/-- The stored count takes no notice of a limit, SEARCH counts the point too,
and it counts a string that a WHEREIN excludes. -/
theorem count_shortcut_wrong :
    (cmdScan pointLib (some mixed) { output := .count, limit := 1 }).map ScanWriter.count = .ok 3 ∧
    (scanIterating pointLib mixed { output := .count, limit := 1 }
      (newScanWriter { output := .count, limit := 1 } false)).map ScanWriter.count = .ok 1 ∧
    (cmdSearch pointLib (some mixed) { output := .count }).map ScanWriter.count = .ok 3 ∧
    (searchIterating pointLib mixed { output := .count }
      (newScanWriter { output := .count } true)).map ScanWriter.count = .ok 2 ∧
    (searchIterating pointLib mixed
      { output := .count, filters := { whereins := [fun _ => false] } }
      (newScanWriter { output := .count, filters := { whereins := [fun _ => false] } } true)).map
        ScanWriter.count = .ok 0 := by
  decide +kernel

end SpatialDb.Server
