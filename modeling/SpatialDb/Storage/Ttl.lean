import SpatialDb.Lib.Bytes
import SpatialDb.Lib.Multimap
import SpatialDb.Lib.OrdMap

/-!
# The TTL manager

Model of `cpp/storage/ttl_manager.cpp`.  A key is a collection and an id; the
deadline of each key is in `expiry_map_`, and `expiry_index_` lists the same
deadlines in time order.  Times are nanoseconds of the steady clock, as
integers: deadlines do not overflow.

Each call holds the mutex for its whole length, and so does the loop of a
sweep that collects the expired keys.
-/

namespace SpatialDb.Storage.Ttl

open Lib Multimap OrdMap List

/-- `Key`. -/
structure Key where
  collection : Bytes
  id : Bytes

/-- The hash map has no order; this one only serves `OrdMap`. -/
instance instLinearOrderKey : LinearOrder Key :=
  LinearOrder.lift' (fun key => toLex (key.collection, key.id)) fun key key' h => by
    obtain ⟨hcollection, hid⟩ := Prod.mk.inj (toLex.injective h)
    cases key
    cases key'
    cases hcollection
    cases hid
    rfl

/-- `TTLManager`, with what the mutex protects apart from the callbacks. -/
structure TTLManager where
  expiryMap : OrdMap Key Int
  expiryIndex : Multimap Int Key

namespace TTLManager

def empty : TTLManager := ⟨OrdMap.empty, Multimap.empty⟩

/-- `now + milliseconds(ttl_ms)`. -/
def expires (now : Int) (ttlMs : Nat) : Int := now + 1000000 * ttlMs

variable (m : TTLManager)

def setTTL (now : Int) (key : Key) (ttlMs : Nat) : TTLManager :=
  let index := match m.expiryMap.get? key with
    | some old => m.expiryIndex.eraseOne old key
    | none => m.expiryIndex
  { expiryMap := m.expiryMap.set key (expires now ttlMs)
    expiryIndex := index.emplace (expires now ttlMs) key }

def clearTTL (key : Key) : TTLManager :=
  match m.expiryMap.get? key with
  | none => m
  | some old =>
    { expiryMap := m.expiryMap.delete key
      expiryIndex := m.expiryIndex.eraseOne old key }

theorem expiryMap_clearTTL (key : Key) : (m.clearTTL key).expiryMap = m.expiryMap.delete key := by
  unfold clearTTL
  cases hget : m.expiryMap.get? key with
  | none => exact (delete_eq_self hget).symm
  | some old => rfl

/-- The first critical section of a sweep: the expired keys, off the front
of the index. -/
def sweep (now : Int) : List Key × TTLManager :=
  let expired := (m.expiryIndex.due now).map Prod.snd
  (expired,
    { expiryMap := expired.foldl delete m.expiryMap
      expiryIndex := m.expiryIndex.popUntil now })

/-! ## The index mirrors the map -/

/-- The index lists the bindings of the map. -/
def Mirrors : Prop :=
  m.expiryIndex.entries.Perm (m.expiryMap.entries.map Prod.swap)

variable {m : TTLManager}

theorem Mirrors.mem_iff (h : m.Mirrors) {d : Int} {key : Key} :
    (d, key) ∈ m.expiryIndex.entries ↔ m.expiryMap.get? key = some d := by
  rw [Perm.mem_iff h, ← mem_entries_iff, mem_map]
  constructor
  · rintro ⟨⟨k, d'⟩, hmem, heq⟩
    cases heq
    exact hmem
  · intro hmem
    exact ⟨(key, d), hmem, rfl⟩

theorem Mirrors.nodup_keys (h : m.Mirrors) : (m.expiryIndex.entries.map Prod.snd).Nodup := by
  have hkeys : ((m.expiryMap.entries.map Prod.swap).map Prod.snd).Nodup := by
    rw [map_map]
    exact m.expiryMap.sorted.imp_of_mem (fun _ _ hlt => ne_of_lt hlt) |>.map _ (fun _ _ h => h)
  exact (Perm.nodup_iff (Perm.map _ h)).mpr hkeys

theorem mirrors_empty : empty.Mirrors := Perm.refl _

/-- What is left of the index when the entry of a bound key is erased. -/
theorem Mirrors.eraseOne (h : m.Mirrors) {key : Key} {d : Int}
    (hget : m.expiryMap.get? key = some d) :
    (m.expiryIndex.eraseOne d key).entries.Perm
      ((m.expiryMap.delete key).entries.map Prod.swap) := by
  have hindex := perm_eraseOne (h.mem_iff.mpr hget)
  have hmap := (entries_perm_of_get? hget).map Prod.swap
  exact (hindex.symm.trans (h.trans hmap)).cons_inv

theorem Mirrors.setTTL (h : m.Mirrors) (now : Int) (key : Key) (ttlMs : Nat) :
    (m.setTTL now key ttlMs).Mirrors := by
  have hset := (m.expiryMap.entries_set_perm key (expires now ttlMs)).map Prod.swap
  refine (emplace_perm _ _ _).trans (Perm.trans ?_ hset.symm)
  refine Perm.cons _ ?_
  cases hget : m.expiryMap.get? key with
  | some old => exact h.eraseOne hget
  | none =>
    rw [delete_eq_self hget]
    exact h

theorem Mirrors.clearTTL (h : m.Mirrors) (key : Key) : (m.clearTTL key).Mirrors := by
  unfold TTLManager.clearTTL
  cases hget : m.expiryMap.get? key with
  | none => exact h
  | some old => exact h.eraseOne hget

/-! ## Sweeping -/

/-- What a sweep at `now` has to do when the keys have these deadlines:
`expired` is what it reports and `m` what it leaves. -/
structure Swept (deadline : Key → Option Int) (now : Int) (expired : List Key)
    (m : TTLManager) : Prop where
  nodup : expired.Nodup
  mem_iff : ∀ key, key ∈ expired ↔ ∃ d, deadline key = some d ∧ d ≤ now
  ordered : expired.Pairwise fun key key' =>
    ∀ d d', deadline key = some d → deadline key' = some d' → d ≤ d'
  left : ∀ key, m.expiryMap.get? key = if key ∈ expired then none else deadline key

theorem Mirrors.mem_expired_iff (h : m.Mirrors) {now : Int} {key : Key} :
    key ∈ (m.sweep now).1 ↔ ∃ d, m.expiryMap.get? key = some d ∧ d ≤ now := by
  simp only [TTLManager.sweep, mem_map, mem_due_iff]
  constructor
  · rintro ⟨⟨d, _⟩, ⟨hmem, hle⟩, rfl⟩
    exact ⟨d, h.mem_iff.mp hmem, hle⟩
  · rintro ⟨d, hget, hle⟩
    exact ⟨(d, key), ⟨h.mem_iff.mpr hget, hle⟩, rfl⟩

theorem get?_sweep (m : TTLManager) (now : Int) (key : Key) :
    (m.sweep now).2.expiryMap.get? key =
      if key ∈ (m.sweep now).1 then none else m.expiryMap.get? key :=
  get?_foldl_delete _ _ _

theorem sweep_spec (h : m.Mirrors) (now : Int) :
    Swept m.expiryMap.get? now (m.sweep now).1 (m.sweep now).2 where
  nodup := h.nodup_keys.sublist ((due_sublist _ _).map _)
  mem_iff := fun _ => h.mem_expired_iff
  ordered := by
    refine pairwise_map.mpr ?_
    have hdue := m.expiryIndex.sorted.sublist (due_sublist _ now)
    refine hdue.imp_of_mem fun {e e'} he he' hle d d' hd hd' => ?_
    have hfst := (h.mem_iff.mp (mem_due_iff.mp he).1).symm.trans hd
    have hsnd := (h.mem_iff.mp (mem_due_iff.mp he').1).symm.trans hd'
    rw [← Option.some.inj hfst, ← Option.some.inj hsnd]
    exact hle
  left := get?_sweep m now

theorem Mirrors.sweep (h : m.Mirrors) (now : Int) : (m.sweep now).2.Mirrors := by
  have hindex : (m.sweep now).2.expiryIndex.entries.Nodup := by
    rw [TTLManager.sweep, entries_popUntil]
    exact (Nodup.of_map _ h.nodup_keys).filter _
  have hmap : ((m.sweep now).2.expiryMap.entries.map Prod.swap).Nodup :=
    (nodup_entries _).map Prod.swap_injective
  refine (perm_ext_iff_of_nodup hindex hmap).mpr ?_
  rintro ⟨d, key⟩
  have hright : (d, key) ∈ (m.sweep now).2.expiryMap.entries.map Prod.swap ↔
      (m.sweep now).2.expiryMap.get? key = some d := by
    rw [← mem_entries_iff, mem_map]
    exact ⟨fun ⟨e, he, heq⟩ => by cases heq; exact he, fun he => ⟨_, he, rfl⟩⟩
  rw [hright, get?_sweep, TTLManager.sweep, entries_popUntil, mem_filter,
    h.mem_iff, decide_eq_true_eq]
  by_cases hkey : key ∈ (m.sweep now).1
  · obtain ⟨d', hget, hle⟩ := h.mem_expired_iff.mp hkey
    rw [if_pos (show key ∈ (m.expiryIndex.due now).map Prod.snd from hkey), hget]
    refine iff_of_false ?_ (by simp)
    rintro ⟨heq, hlt⟩
    exact absurd (Option.some.inj heq ▸ hle) (not_le.mpr hlt)
  · rw [if_neg (show key ∉ (m.expiryIndex.due now).map Prod.snd from hkey)]
    refine and_iff_left_of_imp fun hget => ?_
    exact not_le.mp fun hle => hkey (h.mem_expired_iff.mpr ⟨d, hget, hle⟩)

end TTLManager

/-! ## Runs -/

/-- A call, or a sweep, with the clock it reads. -/
inductive Op where
  | setTTL (now : Int) (key : Key) (ttlMs : Nat)
  | clearTTL (key : Key)
  | sweep (now : Int)

def Op.apply (m : TTLManager) : Op → TTLManager
  | .setTTL now key ttlMs => m.setTTL now key ttlMs
  | .clearTTL key => m.clearTTL key
  | .sweep now => (m.sweep now).2

def run (ops : List Op) : TTLManager := ops.foldl Op.apply TTLManager.empty

/-- How an operation changes the deadline of `key`: set, cleared, or passed. -/
def Op.deadline (key : Key) (d : Option Int) : Op → Option Int
  | .setTTL now key' ttlMs => if key = key' then some (TTLManager.expires now ttlMs) else d
  | .clearTTL key' => if key = key' then none else d
  | .sweep now => d.filter fun d => now < d

/-- The deadline of `key` after `ops`. -/
def deadline (ops : List Op) (key : Key) : Option Int := ops.foldl (Op.deadline key) none

variable {m : TTLManager}

theorem get?_apply (h : m.Mirrors) (op : Op) (key : Key) :
    (op.apply m).expiryMap.get? key = op.deadline key (m.expiryMap.get? key) := by
  cases op with
  | setTTL now key' ttlMs => exact get?_set _ _ _ _
  | clearTTL key' =>
    rw [Op.apply, Op.deadline, TTLManager.expiryMap_clearTTL]
    exact get?_delete _ _ _
  | sweep now =>
    rw [Op.apply, Op.deadline, TTLManager.get?_sweep]
    cases hget : m.expiryMap.get? key with
    | none => simp
    | some d =>
      have hmem : key ∈ (m.sweep now).1 ↔ d ≤ now := by
        rw [h.mem_expired_iff, hget]
        simp
      by_cases hle : d ≤ now
      · rw [if_pos (hmem.mpr hle), Option.filter_some, if_neg (by simpa using hle)]
      · rw [if_neg (hmem.not.mpr hle), Option.filter_some, if_pos (by simpa using hle)]

theorem apply_mirrors (h : m.Mirrors) (op : Op) : (op.apply m).Mirrors := by
  cases op with
  | setTTL now key ttlMs => exact h.setTTL now key ttlMs
  | clearTTL key => exact h.clearTTL key
  | sweep now => exact h.sweep now

theorem foldl_apply (h : m.Mirrors) (ops : List Op) :
    (ops.foldl Op.apply m).Mirrors ∧
    ∀ key, (ops.foldl Op.apply m).expiryMap.get? key =
      ops.foldl (Op.deadline key) (m.expiryMap.get? key) := by
  induction ops generalizing m with
  | nil => exact ⟨h, fun _ => rfl⟩
  | cons op ops ih =>
    obtain ⟨hmirrors, hget⟩ := ih (apply_mirrors h op)
    refine ⟨hmirrors, fun key => ?_⟩
    rw [foldl_cons, foldl_cons, hget, get?_apply h]

/-- Map and index hold the deadlines the calls have left, each key once, and
a sweep reports exactly the keys that are due by them, in order. -/
theorem run_sweep_spec (ops : List Op) :
    (∀ key, (run ops).expiryMap.get? key = deadline ops key) ∧
    (∀ d key, (d, key) ∈ (run ops).expiryIndex.entries ↔
      (run ops).expiryMap.get? key = some d) ∧
    ((run ops).expiryIndex.entries.map Prod.snd).Nodup ∧
    ∀ now, TTLManager.Swept (deadline ops) now ((run ops).sweep now).1 ((run ops).sweep now).2 := by
  obtain ⟨hmirrors, hget⟩ := foldl_apply TTLManager.mirrors_empty ops
  refine ⟨hget, fun _ _ => hmirrors.mem_iff, hmirrors.nodup_keys, fun now => ?_⟩
  have hdeadline : (run ops).expiryMap.get? = deadline ops := funext hget
  rw [← hdeadline]
  exact TTLManager.sweep_spec hmirrors now

end SpatialDb.Storage.Ttl
