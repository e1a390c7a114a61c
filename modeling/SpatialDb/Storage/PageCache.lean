import SpatialDb.Lib.Bytes
import SpatialDb.Lib.Lru
import SpatialDb.Lib.Runs

/-!
# The page cache

Model of `cpp/storage/page_cache.cpp`.  Every operation runs under the mutex,
so a history is a list of operations.  `lru_list_` and `lru_map_` together are
an `Lru`, whose iterators are node addresses; `pages_` is a map by page id.

`write` makes room for a page and inserts it before it looks at the size of
the data, so a rejected write can leave a page behind that the recency list
does not know.
-/

namespace SpatialDb.Storage.Pages

open Lib OrdMap Option

/-- `Page`. -/
structure Page where
  pageId : UInt64
  data : Bytes
  dirty : Bool
  lastAccess : UInt64
  createdAt : UInt64
  deriving DecidableEq

/-- `Page(id, page_size)`. -/
def Page.make (id : UInt64) (pageSize : Nat) : Page :=
  { pageId := id, data := List.replicate pageSize 0, dirty := false, lastAccess := 0
    createdAt := 0 }

/-- `max_pages_` and `page_size_`, which never change. -/
structure Config where
  maxPages : Nat
  pageSize : Nat

/-- `PageCache`. -/
structure PageCache where
  pages : OrdMap UInt64 Page
  lru : Lru UInt64
  hits : UInt64
  misses : UInt64
  evictCount : UInt64
  tick : UInt64

namespace PageCache

def empty : PageCache :=
  { pages := OrdMap.empty, lru := Lru.empty, hits := 0, misses := 0, evictCount := 0, tick := 0 }

variable (c : PageCache)

def touch (id : UInt64) : PageCache := { c with lru := c.lru.touch id }

/-- The loop of `evict`; each round takes a node off the list. -/
def evictLoop (cfg : Config) : Nat → PageCache → PageCache
  | 0, c => c
  | fuel + 1, c =>
    if cfg.maxPages ≤ c.pages.size then
      match c.lru.popBack with
      | none => c
      | some (id, lru) =>
        match c.pages.get? id with
        | none => evictLoop cfg fuel { c with lru := lru }
        | some _ =>
          evictLoop cfg fuel { c with lru := lru, pages := c.pages.delete id
                                      evictCount := c.evictCount + 1 }
    else c

variable (cfg : Config)

def evict (c : PageCache) : PageCache := evictLoop cfg c.lru.list.length c

variable (id : UInt64)

def read : PageCache × Option Bytes :=
  match c.pages.get? id with
  | none => ({ c with misses := c.misses + 1 }, none)
  | some page =>
    let c := { c with hits := c.hits + 1 }.touch id
    ({ c with tick := c.tick + 1
              pages := c.pages.set id { page with lastAccess := c.tick + 1 } },
     some page.data)

/-- The page `write` works on: the cached one, or a new one that room is made
for. -/
def findOrCreate (c : PageCache) (id : UInt64) : PageCache × Page :=
  match c.pages.get? id with
  | some page => (c, page)
  | none =>
    let c := if cfg.maxPages ≤ c.pages.size then c.evict cfg else c
    let page := { Page.make id cfg.pageSize with createdAt := c.tick }
    ({ c with pages := c.pages.set id page }, page)

def write (c : PageCache) (id : UInt64) (data : Bytes) : PageCache × Bool :=
  let (c, page) := c.findOrCreate cfg id
  -- the size is checked only now, when the page is already in the map
  if cfg.pageSize < data.length then (c, false)
  else
    let page := { page with data := data ++ page.data.drop data.length, dirty := true
                            lastAccess := c.tick + 1 }
    ({ c with tick := c.tick + 1, pages := c.pages.set id page }.touch id, true)

def flush : PageCache × Bool :=
  match c.pages.get? id with
  | none => (c, false)
  | some page => ({ c with pages := c.pages.set id { page with dirty := false } }, true)

def invalidate : PageCache :=
  { c with lru := c.lru.remove id, pages := c.pages.delete id }

/-- The bytes cached for a page. -/
def contents : Option Bytes := (c.pages.get? id).map Page.data

/-! ## Consistency -/

/-- The recency list lists the cached pages. -/
def Agrees : Prop := ∀ id, id ∈ c.lru.keys ↔ id ∈ c.pages.keys

/-- The cache is within its capacity, and the recency list lists its pages,
each once. -/
structure Consistent (cfg : Config) (c : PageCache) : Prop where
  size_le : c.pages.size ≤ cfg.maxPages
  nodup : c.lru.keys.Nodup
  agrees : c.Agrees

theorem consistent_empty : Consistent cfg empty where
  size_le := Nat.zero_le _
  nodup := List.nodup_nil
  agrees := fun _ => Iff.rfl

variable {c : PageCache} {id : UInt64} {cfg : Config} {data : Bytes}

theorem agrees_touch_set {c' : PageCache} (h : c.Agrees) {page : Page}
    (hlru : c'.lru = c.lru.touch id) (hpages : c'.pages = c.pages.set id page) : c'.Agrees := by
  intro id'
  rw [hlru, hpages, Lru.mem_keys_touch, mem_keys_set, h id']

/-- What `evict` leaves: room for a page, and nothing that was not there. -/
structure Evicted (cfg : Config) (c c' : PageCache) : Prop where
  agrees : c'.Agrees
  room : c'.pages.size < cfg.maxPages
  absent : ∀ id, c.pages.get? id = none → c'.pages.get? id = none

theorem evictLoop_spec (hmax : 0 < cfg.maxPages) (fuel : Nat) (h : c.Agrees)
    (hfuel : c.lru.list.length ≤ fuel) : Evicted cfg c (evictLoop cfg fuel c) := by
  -- an empty list belongs to an empty cache
  have hnil : ∀ {c : PageCache}, c.Agrees → c.lru.list = [] → c.pages.size < cfg.maxPages := by
    intro c h hlist
    have hkeys : c.pages.keys = [] := by
      refine List.eq_nil_iff_forall_not_mem.mpr fun id hid => ?_
      have hmem := (h id).mpr hid
      rw [Lru.keys, hlist] at hmem
      cases hmem
    rw [← length_keys, hkeys]
    exact hmax
  induction fuel generalizing c with
  | zero =>
    have hlist : c.lru.list = [] := List.eq_nil_of_length_eq_zero (Nat.le_zero.mp hfuel)
    exact ⟨h, hnil h hlist, fun _ hid => hid⟩
  | succ fuel ih =>
    rw [evictLoop]
    split
    · cases hpop : c.lru.popBack with
      | none =>
        exact ⟨h, hnil h (Lru.popBack_eq_none_iff.mp hpop), fun _ hid => hid⟩
      | some popped =>
        obtain ⟨id, lru⟩ := popped
        obtain ⟨hmem, hkeys, hlen⟩ := Lru.popBack_spec hpop
        obtain ⟨page, hpage⟩ : ∃ page, c.pages.get? id = some page :=
          ne_none_iff_exists'.mp ((mem_keys_iff _ _).mp ((h id).mp hmem))
        simp only [hpage]
        have hagrees : Agrees { c with lru := lru, pages := c.pages.delete id
                                       evictCount := c.evictCount + 1 } := by
          intro id'
          rw [hkeys, mem_keys_delete, h id']
        have hrest := ih hagrees (by show lru.list.length ≤ fuel; omega)
        refine ⟨hrest.agrees, hrest.room, fun id' hid' => hrest.absent id' ?_⟩
        show (c.pages.delete id).get? id' = none
        rw [get?_delete, hid', ite_self]
    · rename_i hsize
      exact ⟨h, Nat.lt_of_not_le hsize, fun _ hid => hid⟩

/-- A write goes to a cache `e` with room for its page, whether the page was
cached or room had to be made for it. -/
theorem findOrCreate_spec (hmax : 0 < cfg.maxPages) (h : c.Consistent cfg) (id : UInt64) :
    ∃ e : PageCache, e.Agrees ∧ (c.findOrCreate cfg id).1.lru = e.lru ∧ ∀ page,
      (c.findOrCreate cfg id).1.pages.set id page = e.pages.set id page ∧
      (e.pages.set id page).size ≤ cfg.maxPages := by
  unfold findOrCreate
  cases hpage : c.pages.get? id with
  | some page =>
    refine ⟨c, h.agrees, rfl, fun page' => ⟨rfl, ?_⟩⟩
    rw [size_set_of_some page' hpage]
    exact h.size_le
  | none =>
    have hevicted : Evicted cfg c (if cfg.maxPages ≤ c.pages.size then c.evict cfg else c) := by
      split
      · exact evictLoop_spec hmax _ h.agrees (Nat.le_refl _)
      · rename_i hsize
        exact ⟨h.agrees, Nat.lt_of_not_le hsize, fun _ hid => hid⟩
    refine ⟨_, hevicted.agrees, rfl, fun page => ⟨set_set _ _ _ _, ?_⟩⟩
    rw [size_set_of_none page (hevicted.absent id hpage)]
    exact hevicted.room

/-! ## One operation -/

theorem read_consistent (h : c.Consistent cfg) (id : UInt64) : (c.read id).1.Consistent cfg := by
  unfold read
  cases hpage : c.pages.get? id with
  | none => exact ⟨h.size_le, h.nodup, h.agrees⟩
  | some page =>
    refine ⟨?_, Lru.nodup_keys _, agrees_touch_set h.agrees rfl rfl⟩
    exact (size_set_of_some _ hpage).trans_le h.size_le

theorem flush_consistent (h : c.Consistent cfg) (id : UInt64) : (c.flush id).1.Consistent cfg := by
  unfold flush
  cases hpage : c.pages.get? id with
  | none => exact h
  | some page =>
    refine ⟨(size_set_of_some _ hpage).trans_le h.size_le, h.nodup, fun id' => ?_⟩
    rw [mem_keys_set, h.agrees id']
    refine (or_iff_right_of_imp ?_).symm
    rintro rfl
    rw [mem_keys_iff, hpage]
    exact some_ne_none page

theorem invalidate_consistent (h : c.Consistent cfg) (id : UInt64) :
    (c.invalidate id).Consistent cfg where
  size_le := by
    show (c.pages.delete id).size ≤ cfg.maxPages
    exact (List.length_filter_le _ _).trans h.size_le
  nodup := Lru.nodup_keys _
  agrees := by
    intro id'
    show id' ∈ (c.lru.remove id).keys ↔ id' ∈ (c.pages.delete id).keys
    rw [Lru.mem_keys_remove, mem_keys_delete, h.agrees id']

theorem write_consistent (hmax : 0 < cfg.maxPages) (h : c.Consistent cfg) (id : UInt64)
    (hdata : data.length ≤ cfg.pageSize) :
    (c.write cfg id data).1.Consistent cfg := by
  obtain ⟨e, hagrees, hlru, hpages⟩ := findOrCreate_spec hmax h id
  simp only [write, if_neg (Nat.not_lt.mpr hdata)]
  refine ⟨?_, Lru.nodup_keys _, agrees_touch_set hagrees ?_ (hpages _).1⟩
  · exact ((congrArg size (hpages _).1).trans_le (hpages _).2)
  · exact congrArg (Lru.touch · id) hlru

/-- A write of too much data to a cached page does nothing. -/
theorem write_eq_of_cached (hcached : id ∈ c.pages.keys) (hdata : cfg.pageSize < data.length) :
    c.write cfg id data = (c, false) := by
  obtain ⟨page, hpage⟩ := ne_none_iff_exists'.mp ((mem_keys_iff _ _).mp hcached)
  simp only [write, findOrCreate, hpage, if_pos hdata]

/-- A write of too much data to any other page fails, and caches the page. -/
theorem write_of_not_cached (hcached : id ∉ c.pages.keys) (hdata : cfg.pageSize < data.length) :
    (c.write cfg id data).2 = false ∧ (c.write cfg id data).1.contents id ≠ c.contents id := by
  have hnone : c.pages.get? id = none := by
    rwa [mem_keys_iff, not_not] at hcached
  simp only [write, findOrCreate, hnone, if_pos hdata, contents]
  refine ⟨trivial, ?_⟩
  rw [get?_set_self]
  exact some_ne_none _

end PageCache

/-! ## Histories -/

/-- The operations on a cache. -/
inductive Op where
  | read (id : UInt64)
  | write (id : UInt64) (data : Bytes)
  | flush (id : UInt64)
  | invalidate (id : UInt64)

variable (cfg : Config) (c : PageCache)

def Op.apply : Op → PageCache
  | .read id => (c.read id).1
  | .write id data => (c.write cfg id data).1
  | .flush id => (c.flush id).1
  | .invalidate id => c.invalidate id

/-- A write that returns `false` leaves every page's contents as they were. -/
def Op.FailsCleanly : Op → Prop
  | .write id data => (c.write cfg id data).2 = false →
      ∀ id', (c.write cfg id data).1.contents id' = c.contents id'
  | _ => True

/-- Data that is too long is only written to pages that are cached. -/
def Op.Fits : Op → Prop
  | .write id data => cfg.pageSize < data.length → id ∈ c.pages.keys
  | _ => True

theorem apply_consistent_iff {cfg : Config} (hmax : 0 < cfg.maxPages) (c : PageCache) (op : Op)
    (h : c.Consistent cfg) :
    (op.apply cfg c).Consistent cfg ∧ op.FailsCleanly cfg c ↔ op.Fits cfg c := by
  cases op with
  | read id => exact iff_of_true ⟨PageCache.read_consistent h id, trivial⟩ trivial
  | flush id => exact iff_of_true ⟨PageCache.flush_consistent h id, trivial⟩ trivial
  | invalidate id => exact iff_of_true ⟨PageCache.invalidate_consistent h id, trivial⟩ trivial
  | write id data =>
    by_cases hdata : cfg.pageSize < data.length
    · by_cases hcached : id ∈ c.pages.keys
      · have hwrite := PageCache.write_eq_of_cached hcached hdata
        refine iff_of_true ⟨?_, fun _ id' => ?_⟩ fun _ => hcached
        · rw [Op.apply, hwrite]
          exact h
        · rw [hwrite]
      refine iff_of_false ?_ fun hfits => hcached (hfits hdata)
      rintro ⟨-, hclean⟩
      obtain ⟨hfalse, hchanged⟩ := PageCache.write_of_not_cached hcached hdata
      exact hchanged (hclean hfalse id)
    · refine iff_of_true ?_ fun hlong => absurd hlong hdata
      refine ⟨PageCache.write_consistent hmax h id (Nat.le_of_not_lt hdata), ?_⟩
      intro hfalse
      simp [PageCache.write, hdata] at hfalse

/-- The histories in which the cache stays within its capacity, its recency
list lists the cached pages, and a failed write changes no contents. -/
theorem run_consistent_iff (hmax : 1 ≤ cfg.maxPages) (ops : List Op) :
    Always (Op.apply cfg) (PageCache.Consistent cfg) PageCache.empty ops ∧
      AtEach (Op.apply cfg) (fun c op => op.FailsCleanly cfg c) PageCache.empty ops ↔
    AtEach (Op.apply cfg) (fun c op => op.Fits cfg c) PageCache.empty ops :=
  always_and_atEach_iff (apply_consistent_iff hmax) (PageCache.consistent_empty cfg) ops

theorem run_consistent_iff_rejected :
    1 ≤ (Config.mk 1 4).maxPages ∧
    (Always (Op.apply ⟨1, 4⟩) (PageCache.Consistent ⟨1, 4⟩) PageCache.empty
        [.write 1 [7], .write 1 [1, 2, 3, 4, 5], .write 2 [8]] ∧
      AtEach (Op.apply ⟨1, 4⟩) (fun c op => op.FailsCleanly ⟨1, 4⟩ c) PageCache.empty
        [.write 1 [7], .write 1 [1, 2, 3, 4, 5], .write 2 [8]]) := by
  refine ⟨by decide, (run_consistent_iff ⟨1, 4⟩ (by decide) _).mpr ?_⟩
  refine atEach_cons.mpr ⟨fun h => absurd h (by decide), ?_⟩
  refine atEach_cons.mpr ⟨fun _ => by decide, ?_⟩
  exact atEach_cons.mpr ⟨fun h => absurd h (by decide), atEach_nil⟩

/-- Two writes that are rejected leave a cache for one page with two pages
and an empty recency list; no later `evict` can repair it. -/
theorem rejected_writes_stay_cached :
    ((PageCache.empty.write ⟨1, 4⟩ 1 [1, 2, 3, 4, 5]).2 = false ∧
      PageCache.empty.contents 1 = none ∧
      (PageCache.empty.write ⟨1, 4⟩ 1 [1, 2, 3, 4, 5]).1.contents 1 = some [0, 0, 0, 0]) ∧
    ([.write 1 [1, 2, 3, 4, 5], .write 2 [1, 2, 3, 4, 5]].foldl (Op.apply ⟨1, 4⟩)
      PageCache.empty).pages.size = 2 ∧
    ([.write 1 [1, 2, 3, 4, 5], .write 2 [1, 2, 3, 4, 5]].foldl (Op.apply ⟨1, 4⟩)
      PageCache.empty).lru.keys = [] := by
  decide

end SpatialDb.Storage.Pages
